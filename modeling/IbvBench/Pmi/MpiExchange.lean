import IbvBench.Pmi.Mpi
import Mathlib.Tactic.Ring

/-!
# The MPI backend refines put and fence

`Archive.Holds a l` says that an archive holds a list of pairs of strings, in that order, and
`Packed buf l` that a buffer of slots does.  Publishing appends to the one; the barrier turns the one
into the other, concatenates the buffers of all ranks, and appends what they hold to the global
archive.  So the ranks after a list of calls hold what `PutFence` says was put (`Refines`), as long
as every string fits into a slot, every epoch's buffer into an `int`, and the archive into memory
(`Limits`).
-/

set_option autoImplicit false

namespace IbvBench

open StepMachine

variable {junk : ℕ → Char}

/-! ## Archives -/

/-- The archive holds these strings. -/
structure Archive.Holds (a : Archive) (l : List (CString × CString)) : Prop where
  size : a.size = l.length
  size_le : a.size ≤ a.capacity
  capacity : ∃ j ≤ 27, a.capacity = 8 * 2 ^ j
  key : ∀ i (h : i < l.length), (a.ptr i).key.length = STRING_LIMIT ∧
    cstr (a.ptr i).key = some l[i].1
  value : ∀ i (h : i < l.length), (a.ptr i).value.length = STRING_LIMIT ∧
    cstr (a.ptr i).value = some l[i].2

section

variable {a a' : Archive} {l : List (CString × CString)} {kb vb : List Char} {k v : CString}

theorem Archive.holds_init : Archive.init.Holds [] where
  size := rfl
  size_le := by decide
  capacity := ⟨0, by decide, rfl⟩
  key _ h := by cases h
  value _ h := by cases h

theorem Archive.Holds.clear (h : a.Holds l) : a.clear.Holds [] where
  size := rfl
  size_le := Nat.zero_le _
  capacity := h.capacity
  key _ h := by cases h
  value _ h := by cases h

/-- The capacity is a power of two that is an `int`. -/
theorem Archive.Holds.length_le (h : a.Holds l) : l.length ≤ 2 ^ 30 := by
  obtain ⟨j, hj, hcap⟩ := h.capacity
  have hpow : 2 ^ j ≤ 2 ^ 27 := Nat.pow_le_pow_right (by decide) hj
  have hle := h.size_le
  rw [h.size, hcap] at hle
  omega

/-- The archive grows while it has less than `2 ^ 30` entries. -/
theorem Archive.Holds.grow (h : a.Holds l) (hlt : l.length < 2 ^ 30) :
    ∃ a', a.grow = .ok a' ∧ a'.Holds l ∧ a'.size < a'.capacity := by
  obtain ⟨j, hj, hcap⟩ := h.capacity
  rw [Archive.grow]
  by_cases hfull : a.size = a.capacity
  · have hj' : j < 27 := by
      by_contra hge
      have hj27 : j = 27 := by omega
      rw [hj27] at hcap
      have hsize := h.size
      omega
    have hpow : 2 ^ (j + 1) ≤ 2 ^ 27 := Nat.pow_le_pow_right (by decide) hj'
    have hdouble : a.capacity * 2 = 8 * 2 ^ (j + 1) := by rw [hcap, pow_succ, Nat.mul_assoc]
    rw [if_pos hfull, if_pos (by omega)]
    refine ⟨_, rfl, ⟨h.size, ?_, ⟨j + 1, hj', hdouble⟩, h.key, h.value⟩, ?_⟩
    · show a.size ≤ a.capacity * 2
      omega
    · show a.size < a.capacity * 2
      have hpos : 0 < 2 ^ j := Nat.two_pow_pos j
      omega
  · rw [if_neg hfull]
    exact ⟨a, rfl, h, Nat.lt_of_le_of_ne h.size_le hfull⟩

theorem Archive.Holds.of_grow (h : a.Holds l) (hg : a.grow = .ok a') : l.length < 2 ^ 30 := by
  obtain ⟨j, hj, hcap⟩ := h.capacity
  have hpow : 2 ^ j ≤ 2 ^ 27 := Nat.pow_le_pow_right (by decide) hj
  have hsize := h.size
  have hle := h.size_le
  rw [Archive.grow] at hg
  split at hg
  · split at hg
    · omega
    · cases hg
  · omega

theorem length_malloc (junk : ℕ → Char) (n : ℕ) : (malloc junk n).length = n := by
  simp [malloc]

theorem inBlock_eq_ok {α : Type} {o : Option α} {x : α} : inBlock o = .ok x ↔ o = some x := by
  cases o <;> simp [inBlock]

variable (junk) in
/-- A string that fits into a block is copied. -/
theorem strcpy_malloc (hk : cstr kb = some k) (hlt : k.length < STRING_LIMIT) :
    ∃ d, strcpy (malloc junk STRING_LIMIT) kb = some d ∧ d.length = STRING_LIMIT ∧
      cstr d = some k := by
  have hlen : k.length < (malloc junk STRING_LIMIT).length := by rwa [length_malloc]
  refine ⟨_, strcpy_eq hk hlen, ?_, cstr_buf_append ..⟩
  rw [length_buf_append_drop hlen, length_malloc]

theorem length_lt_of_strcpy {d : List Char} (hk : cstr kb = some k)
    (h : strcpy (malloc junk STRING_LIMIT) kb = some d) : k.length < STRING_LIMIT := by
  obtain ⟨s, hs, hlen, -⟩ := of_strcpy_eq_some h
  rw [hk] at hs
  cases hs
  rwa [length_malloc] at hlen

variable (junk) in
/-- **`archive_push` appends**, if both strings fit into a block and there is memory left. -/
theorem Archive.Holds.push (h : a.Holds l) (hk : cstr kb = some k) (hv : cstr vb = some v)
    (hkl : k.length < STRING_LIMIT) (hvl : v.length < STRING_LIMIT) (hlt : l.length < 2 ^ 30) :
    ∃ a', a.push junk kb vb = .ok a' ∧ a'.Holds (l ++ [(k, v)]) := by
  obtain ⟨g, hg, hh, hroom⟩ := h.grow hlt
  obtain ⟨dk, hdk, hdkl, hdks⟩ := strcpy_malloc junk hk hkl
  obtain ⟨dv, hdv, hdvl, hdvs⟩ := strcpy_malloc junk hv hvl
  simp only [Archive.push, hg, hdk, hdv, inBlock, ok_bind, if_pos hroom]
  refine ⟨_, rfl, ?_, hroom, hh.capacity, fun i hi ↦ ?_, fun i hi ↦ ?_⟩
  · simp [hh.size]
  all_goals
    rw [List.length_append, List.length_singleton] at hi
    by_cases hlast : i = l.length
    · subst hlast
      simp only [hh.size, Function.update_self, List.getElem_concat_length]
      first | exact ⟨hdkl, hdks⟩ | exact ⟨hdvl, hdvs⟩
    · have hi' : i < l.length := by omega
      have hne : i ≠ g.size := by rw [hh.size]; exact hlast
      simp only [Function.update_of_ne hne, List.getElem_append_left hi']
      first | exact hh.key i hi' | exact hh.value i hi'

theorem Archive.Holds.of_push (h : a.Holds l) (hk : cstr kb = some k) (hv : cstr vb = some v)
    (hp : a.push junk kb vb = .ok a') :
    k.length < STRING_LIMIT ∧ v.length < STRING_LIMIT ∧ l.length < 2 ^ 30 := by
  obtain ⟨g, hg, hp⟩ := bind_eq_ok.mp hp
  obtain ⟨dk, hdk, hp⟩ := bind_eq_ok.mp hp
  obtain ⟨dv, hdv, -⟩ := bind_eq_ok.mp hp
  exact ⟨length_lt_of_strcpy hk (inBlock_eq_ok.mp hdk),
    length_lt_of_strcpy hv (inBlock_eq_ok.mp hdv), h.of_grow hg⟩

/-- The search finds the first entry with the key. -/
theorem Archive.Holds.searchLoop (h : a.Holds l) (key : CString) {todo i : ℕ}
    (hi : i + todo = l.length) :
    (a.searchLoop key.buf todo i).map cstr = ((l.drop i).lookup key).map some := by
  induction todo generalizing i with
  | zero =>
    rw [List.drop_of_length_le (by omega)]
    rfl
  | succ todo ih =>
    have hlt : i < l.length := by omega
    rw [Archive.searchLoop, (h.key i hlt).2, cstr_buf, List.drop_eq_getElem_cons hlt,
      List.lookup_cons]
    by_cases hk : l[i].1 = key
    · rw [if_pos (by rw [hk]), show (key == l[i].1) = true by simpa using hk.symm, Option.map_some,
        (h.value i hlt).2]
      rfl
    · rw [if_neg fun he ↦ hk (Option.some.inj he),
        show (key == l[i].1) = false by simpa using fun he ↦ hk he.symm, ih (by omega)]

end

/-! ## Buffers of slots -/

/-- The buffer holds these strings, in slots of `STRING_LIMIT` characters. -/
inductive Packed : List Char → List (CString × CString) → Prop
  | nil : Packed [] []
  | cons {kb vb buf : List Char} {k v : CString} {l : List (CString × CString)} :
      kb.length = STRING_LIMIT → cstr kb = some k → vb.length = STRING_LIMIT →
      cstr vb = some v → Packed buf l → Packed (kb ++ (vb ++ buf)) ((k, v) :: l)

section

variable {a a' : Archive} {l l' : List (CString × CString)} {buf buf' pre rest : List Char}

theorem Packed.length (h : Packed buf l) : buf.length = l.length * (STRING_LIMIT * 2) := by
  induction h with
  | nil => rfl
  | cons hk _ hv _ _ ih =>
    rw [List.length_append, List.length_append, hk, hv, ih, List.length_cons, Nat.add_mul]
    omega

theorem Packed.append (h : Packed buf l) (h' : Packed buf' l') :
    Packed (buf ++ buf') (l ++ l') := by
  induction h with
  | nil => exact h'
  | cons hk hks hv hvs _ ih =>
    rw [List.append_assoc, List.append_assoc]
    exact .cons hk hks hv hvs ih

theorem Packed.flatMap {α : Type} {ranks : List α} {src : α → List Char}
    {pending : α → List (CString × CString)} (h : ∀ i, Packed (src i) (pending i)) :
    Packed (ranks.map src).flatten (ranks.flatMap pending) := by
  induction ranks with
  | nil => exact .nil
  | cons i ranks ih => exact (h i).append ih

theorem int_eq {x : ℕ} (h : x < 2 ^ 31) : int x = .ok x := if_pos h

theorem int_eq_ok {x y : ℕ} : int x = .ok y ↔ y = x ∧ x < 2 ^ 31 := by
  rw [int]
  split
  · rename_i h
    exact ⟨fun he ↦ ⟨(Except.ok.inj he).symm, h⟩, fun he ↦ by rw [he.1]⟩
  · rename_i h
    exact ⟨fun he ↦ (by cases he), fun he ↦ absurd he.2 h⟩

/-- Entry by entry the archive is copied behind what has been assembled. -/
theorem assembleLoop_eq (h : a.Holds l) (hfit : l.length * (STRING_LIMIT * 2) < 2 ^ 31)
    {todo i : ℕ} (hi : i + todo = l.length) (hpre : pre.length = i * (STRING_LIMIT * 2))
    (hrest : rest.length = todo * (STRING_LIMIT * 2)) :
    ∃ buf, assembleLoop a todo i (pre ++ rest) = .ok (pre ++ buf) ∧ Packed buf (l.drop i) := by
  induction todo generalizing i pre rest with
  | zero =>
    obtain rfl : rest = [] := List.eq_nil_of_length_eq_zero (by omega)
    rw [List.drop_of_length_le (by omega)]
    exact ⟨[], rfl, .nil⟩
  | succ todo ih =>
    have hlt : i < l.length := by omega
    obtain ⟨hkl, hks⟩ := h.key i hlt
    obtain ⟨hvl, hvs⟩ := h.value i hlt
    have hmul : i * (STRING_LIMIT * 2) + STRING_LIMIT * 2 ≤ l.length * (STRING_LIMIT * 2) := by
      rw [← Nat.succ_mul]
      exact Nat.mul_le_mul_right _ hlt
    have hoff : 2 * i * STRING_LIMIT = pre.length := by rw [hpre]; ring
    have hoff' : (i * 2 + 1) * STRING_LIMIT = (pre ++ (a.ptr i).key).length := by
      rw [List.length_append, hpre, hkl]; ring
    have hroom : todo * (STRING_LIMIT * 2) + STRING_LIMIT * 2 = rest.length := by
      rw [hrest, Nat.succ_mul]
    have hkey : memcpy (pre ++ rest) pre.length (a.ptr i).key STRING_LIMIT
        = some (pre ++ (a.ptr i).key ++ rest.drop STRING_LIMIT) := by
      rw [← hkl]
      exact memcpy_append (by omega)
    have hvalue : memcpy (pre ++ (a.ptr i).key ++ rest.drop STRING_LIMIT)
          (pre ++ (a.ptr i).key).length (a.ptr i).value STRING_LIMIT
        = some (pre ++ (a.ptr i).key ++ (a.ptr i).value ++ (rest.drop STRING_LIMIT).drop
          STRING_LIMIT) := by
      rw [← hvl]
      exact memcpy_append (by rw [List.length_drop]; omega)
    have hint : pre.length < 2 ^ 31 := by omega
    have hint' : (pre ++ (a.ptr i).key).length < 2 ^ 31 := by
      rw [List.length_append]
      omega
    have hpre' : (pre ++ (a.ptr i).key ++ (a.ptr i).value).length
        = (i + 1) * (STRING_LIMIT * 2) := by
      rw [List.length_append, List.length_append, hpre, hkl, hvl]
      ring
    have hrest' : ((rest.drop STRING_LIMIT).drop STRING_LIMIT).length
        = todo * (STRING_LIMIT * 2) := by
      rw [List.length_drop, List.length_drop]
      omega
    obtain ⟨buf, hbuf, hpacked⟩ := ih (by omega) hpre' hrest'
    refine ⟨(a.ptr i).key ++ ((a.ptr i).value ++ buf), ?_, ?_⟩
    · simp only [assembleLoop, hoff, hoff', int_eq hint, int_eq hint', ok_bind, hkey, hvalue,
        inBlock, hbuf]
      rw [List.append_assoc, List.append_assoc]
    · rw [List.drop_eq_getElem_cons hlt]
      exact .cons hkl hks hvl hvs hpacked

variable (junk) in
/-- The send buffer of a rank. -/
theorem assemble_eq (h : a.Holds l) (hfit : l.length * (STRING_LIMIT * 2) < 2 ^ 31) :
    ∃ buf, assemble junk a = .ok buf ∧ Packed buf l := by
  have hsize : a.size * STRING_LIMIT * 2 = l.length * (STRING_LIMIT * 2) := by rw [h.size]; ring
  have hnil : ([] : List Char).length = 0 * (STRING_LIMIT * 2) := (Nat.zero_mul _).symm
  obtain ⟨buf, hbuf, hpacked⟩ := assembleLoop_eq h hfit (Nat.zero_add _) hnil
    (length_malloc junk _)
  refine ⟨buf, ?_, hpacked⟩
  rw [assemble, hsize, int_eq hfit, ok_bind, h.size]
  exact hbuf

/-- Where the strings of the next entry are in the gathered buffer. -/
theorem offsets_eq {kb vb : List Char} {i : ℕ} (hpre : pre.length = i * (STRING_LIMIT * 2))
    (hk : kb.length = STRING_LIMIT) (hv : vb.length = STRING_LIMIT) :
    2 * i * STRING_LIMIT = pre.length ∧ (2 * i + 1) * STRING_LIMIT = (pre ++ kb).length ∧
      (pre ++ kb ++ vb).length = (i + 1) * (STRING_LIMIT * 2) := by
  simp only [List.length_append, hpre, hk, hv]
  refine ⟨?_, ?_, ?_⟩ <;> ring

variable (junk) in
/-- **The gathered buffer is appended to the global archive**, while there is memory left. -/
theorem putBack_eq (h : a.Holds l) (hp : Packed buf l') {i : ℕ}
    (hpre : pre.length = i * (STRING_LIMIT * 2)) (hfit : (pre ++ buf).length < 2 ^ 31)
    (hlen : l.length + l'.length ≤ 2 ^ 30) :
    ∃ a', putBack junk (pre ++ buf) l'.length i a = .ok a' ∧ a'.Holds (l ++ l') := by
  induction hp generalizing pre i a l with
  | nil => exact ⟨a, rfl, by rwa [List.append_nil]⟩
  | @cons kb vb buf k v l' hk hks hv hvs hp ih =>
    obtain ⟨hoff, hoff', hnext⟩ := offsets_eq hpre hk hv
    rw [List.length_cons] at hlen
    have hassoc : pre ++ (kb ++ (vb ++ buf)) = pre ++ kb ++ (vb ++ buf) := by
      rw [List.append_assoc]
    have hfit' : (pre ++ kb).length < 2 ^ 31 := by
      simp only [List.length_append] at hfit ⊢
      omega
    have hkl : k.length < STRING_LIMIT := hk ▸ length_lt_of_cstr hks
    have hvl : v.length < STRING_LIMIT := hv ▸ length_lt_of_cstr hvs
    obtain ⟨b, hb, hholds⟩ := h.push junk (cstr_append hks (vb ++ buf))
      (cstr_append hvs buf) hkl hvl (by omega)
    obtain ⟨a', ha', hholds'⟩ := ih hholds hnext
      (by simpa only [List.append_assoc] using hfit)
      (by rw [List.length_append, List.length_singleton]; omega)
    refine ⟨a', ?_, by rw [List.append_assoc] at hholds'; exact hholds'⟩
    have hint : pre.length < 2 ^ 31 := by
      rw [List.length_append] at hfit
      omega
    rw [List.length_cons, putBack, hoff, int_eq hint, ok_bind, hoff', int_eq hfit', ok_bind,
      List.drop_left, hassoc, List.drop_left, hb, ok_bind]
    rwa [List.append_assoc] at ha'

theorem length_le_of_putBack (h : a.Holds l) (hp : Packed buf l') {i : ℕ}
    (hpre : pre.length = i * (STRING_LIMIT * 2))
    (hok : putBack junk (pre ++ buf) l'.length i a = .ok a') :
    l.length + l'.length ≤ 2 ^ 30 := by
  induction hp generalizing pre i a l with
  | nil => exact h.length_le
  | @cons kb vb buf k v l' hk hks hv hvs hp ih =>
    obtain ⟨hoff, hoff', hnext⟩ := offsets_eq hpre hk hv
    have hassoc : pre ++ (kb ++ (vb ++ buf)) = pre ++ kb ++ (vb ++ buf) := by
      rw [List.append_assoc]
    rw [List.length_cons, putBack] at hok
    obtain ⟨x, hx, hok⟩ := bind_eq_ok.mp hok
    obtain ⟨y, hy, hok⟩ := bind_eq_ok.mp hok
    obtain ⟨b, hb, hok⟩ := bind_eq_ok.mp hok
    rw [(int_eq_ok.mp hx).1, (int_eq_ok.mp hy).1, hoff, hoff', List.drop_left, hassoc,
      List.drop_left] at hb
    obtain ⟨hkl, hvl, hlt⟩ := h.of_push (cstr_append hks (vb ++ buf)) (cstr_append hvs buf) hb
    obtain ⟨b', hb', hholds⟩ := h.push junk (cstr_append hks (vb ++ buf))
      (cstr_append hvs buf) hkl hvl hlt
    rw [hb] at hb'
    cases hb'
    have hle := ih hholds hnext (by rwa [List.append_assoc, ← hassoc])
    rw [List.length_append, List.length_singleton] at hle
    rw [List.length_cons]
    omega

end

/-! ## Counts and displacements -/

section

variable {counts : List ℕ} {total cur : ℕ}

theorem totalCount_eq (h : total + counts.sum < 2 ^ 31) :
    totalCount total counts = .ok (total + counts.sum) := by
  induction counts generalizing total with
  | nil => rfl
  | cons count counts ih =>
    rw [List.sum_cons] at h ⊢
    rw [totalCount, int_eq (by omega), ok_bind, ih (by omega), Nat.add_assoc]

theorem of_totalCount {x : ℕ} (h : totalCount total counts = .ok x) : x = total + counts.sum := by
  induction counts generalizing total with
  | nil =>
    cases h
    rfl
  | cons count counts ih =>
    obtain ⟨y, hy, h⟩ := bind_eq_ok.mp h
    rw [ih h, (int_eq_ok.mp hy).1, List.sum_cons, Nat.add_assoc]

theorem refactorCounts_eq (h : counts.sum * (STRING_LIMIT * 2) < 2 ^ 31) :
    refactorCounts counts = .ok (counts.map (· * (STRING_LIMIT * 2))) := by
  induction counts with
  | nil => rfl
  | cons count counts ih =>
    rw [List.sum_cons, Nat.add_mul] at h
    rw [refactorCounts, int_eq (by omega), ok_bind, ih (by omega), ok_bind, List.map_cons]

/-- **The contributions are placed one after the other.** -/
theorem allgatherv_eq {bufs : List (List Char)} {pre rest : List Char} (hpre : pre.length = cur)
    (hrest : rest.length = (bufs.map List.length).sum)
    (hfit : cur + (bufs.map List.length).sum < 2 ^ 31) :
    ∃ displs, assembleDispls cur (bufs.map List.length) = .ok displs ∧
      allgatherv bufs (bufs.map List.length) displs (pre ++ rest) = .ok (pre ++ bufs.flatten) := by
  induction bufs generalizing cur pre rest with
  | nil =>
    obtain rfl : rest = [] := List.eq_nil_of_length_eq_zero hrest
    exact ⟨[], rfl, rfl⟩
  | cons b bufs ih =>
    rw [List.map_cons, List.sum_cons] at hrest hfit
    have hpre' : (pre ++ b).length = cur + b.length := by rw [List.length_append, hpre]
    have hrest' : (rest.drop b.length).length = (bufs.map List.length).sum := by
      rw [List.length_drop]
      omega
    obtain ⟨displs, hdispls, hgather⟩ := ih hpre' hrest' (by omega)
    refine ⟨cur :: displs, ?_, ?_⟩
    · rw [List.map_cons, assembleDispls, int_eq (by omega), ok_bind, hdispls, ok_bind]
    · rw [List.map_cons, allgatherv, if_pos rfl, ← hpre, memcpy_append (by omega), inBlock, ok_bind,
        hgather, List.flatten_cons, List.append_assoc]

end

/-! ## The barrier -/

theorem onRanks_eq_ok {α : Type} {n : ℕ} {f : Fin n → Pmi α} {g : Fin n → α} :
    onRanks f = .ok g ↔ ∀ i, f i = .ok (g i) := by
  induction n with
  | zero => exact ⟨fun _ i ↦ i.elim0, fun _ ↦ congrArg Except.ok (funext fun i : Fin 0 ↦ i.elim0)⟩
  | succ n ih =>
    rw [onRanks, Fin.forall_fin_succ]
    constructor
    · intro h
      obtain ⟨a, ha, h⟩ := bind_eq_ok.mp h
      obtain ⟨g', hg', h⟩ := bind_eq_ok.mp h
      cases h
      exact ⟨ha, ih.mp hg'⟩
    · rintro ⟨h0, hs⟩
      have hrest := ih (f := fun i ↦ f i.succ) (g := fun i ↦ g i.succ) |>.mpr hs
      rw [h0, ok_bind, hrest, ok_bind]
      exact congrArg _ (Fin.cons_self_tail g)

/-- A computation that succeeds on every rank. -/
theorem onRanks_of_exists {α : Type} {n : ℕ} {f : Fin n → Pmi α} {Q : Fin n → α → Prop}
    (h : ∀ i, ∃ a, f i = .ok a ∧ Q i a) : ∃ g, onRanks f = .ok g ∧ ∀ i, Q i (g i) := by
  choose g hg hQ using h
  exact ⟨g, onRanks_eq_ok.mpr hg, hQ⟩

section

variable {n : ℕ} {job : Fin n → Proc} {a : PutFence.State n CString CString}

/-- The archives of every rank hold what was put. -/
def Refines (job : Fin n → Proc) (a : PutFence.State n CString CString) : Prop := ∀ r,
  (job r).lArchive.Holds (a.pending r) ∧ (job r).gArchive.Holds a.visible

theorem refines_init : Refines (fun _ : Fin n ↦ Proc.init) {} := fun _ ↦
  ⟨Archive.holds_init, Archive.holds_init⟩

/-- The counts of all ranks add up to the entries of the epoch. -/
theorem sum_sizes (h : Refines job a) :
    (allgather fun i ↦ (job i).lArchive.size).sum = a.gathered.length := by
  have hsize : (fun i ↦ (job i).lArchive.size) = fun i ↦ (a.pending i).length :=
    funext fun i ↦ (h i).1.size
  rw [allgather, hsize, PutFence.State.gathered, List.length_flatMap]

theorem lengths_of_packed {src : Fin n → List Char} (h : Refines job a)
    (hsrc : ∀ i, Packed (src i) (a.pending i)) :
    (allgather fun i ↦ (job i).lArchive.size).map (· * (STRING_LIMIT * 2))
      = (allgather src).map List.length := by
  rw [allgather, allgather, List.map_map, List.map_map]
  refine List.map_congr_left fun i _ ↦ ?_
  simp only [Function.comp_apply, (h i).1.size, (hsrc i).length]

/-- Up to its last loop the barrier succeeds on every rank, if the buffer fits. -/
theorem lcmPmBarrier_eq {src : Fin n → List Char} (h : Refines job a)
    (hsrc : ∀ i, Packed (src i) (a.pending i))
    (hfit : a.gathered.length * (STRING_LIMIT * 2) < 2 ^ 31) (r : Fin n) :
    lcmPmBarrier junk (allgather fun i ↦ (job i).lArchive.size) (allgather src) (job r)
      = putBack junk (allgather src).flatten a.gathered.length 0 (job r).gArchive >>= fun gArchive ↦
        .ok { lArchive := (job r).lArchive.clear, gArchive } := by
  have hsum := sum_sizes h
  have hlens := lengths_of_packed h hsrc
  have hpacked : Packed (allgather src).flatten a.gathered := .flatMap hsrc
  have hsums : ((allgather src).map List.length).sum = a.gathered.length * (STRING_LIMIT * 2) := by
    rw [← List.length_flatten, hpacked.length]
  have hsize : a.gathered.length * STRING_LIMIT * 2 = a.gathered.length * (STRING_LIMIT * 2) :=
    Nat.mul_assoc ..
  have hle : a.gathered.length ≤ a.gathered.length * (STRING_LIMIT * 2) :=
    Nat.le_mul_of_pos_right _ (by decide)
  have hnil : ([] : List Char).length = 0 := rfl
  have hrest : (malloc junk (a.gathered.length * (STRING_LIMIT * 2))).length
      = ((allgather src).map List.length).sum := by rw [length_malloc, hsums]
  obtain ⟨displs, hdispls, hgather⟩ := allgatherv_eq hnil hrest (by rw [hsums]; omega)
  rw [lcmPmBarrier, totalCount_eq (by rw [hsum]; omega), ok_bind, hsum, Nat.zero_add, hsize,
    int_eq hfit, ok_bind, refactorCounts_eq (by rw [hsum]; exact hfit), ok_bind, hlens, hdispls,
    ok_bind]
  rw [List.nil_append] at hgather
  rw [hgather, ok_bind, List.nil_append]

/-! ## Calls -/

/-- What a call needs: strings that fit into a slot, a buffer whose size is an `int`, and memory
left. -/
def CallFits (a : PutFence.State n CString CString) : MpiCall n → Prop
  | .put i key value => key.length < STRING_LIMIT ∧ value.length < STRING_LIMIT ∧
      (a.pending i).length < 2 ^ 30
  | .fence => a.gathered.length * 2 * STRING_LIMIT < 2 ^ 31 ∧
      a.visible.length + a.gathered.length ≤ 2 ^ 30

instance (a : PutFence.State n CString CString) (c : MpiCall n) : Decidable (CallFits a c) :=
  match c with
  | .put _ _ _ => inferInstanceAs (Decidable (_ ∧ _ ∧ _))
  | .fence => inferInstanceAs (Decidable (_ ∧ _))

theorem mul_slot (x : ℕ) : x * 2 * STRING_LIMIT = x * (STRING_LIMIT * 2) := by
  rw [Nat.mul_assoc, Nat.mul_comm 2]

variable (junk) in
/-- **A call refines put or fence.** -/
theorem Refines.step (h : Refines job a) {c : MpiCall n} (hc : CallFits a c) :
    ∃ job', mpiStep junk job c = .ok job' ∧ Refines job' (a.apply c) := by
  cases c with
  | put i key value =>
    obtain ⟨hk, hv, hlt⟩ := hc
    obtain ⟨b, hb, hholds⟩ := (h i).1.push junk (cstr_buf key) (cstr_buf value) hk hv hlt
    refine ⟨_, by rw [mpiStep, lcmPmPublish, hb]; rfl, fun r ↦ ?_⟩
    by_cases hr : r = i
    · subst hr
      simp only [Function.update_self, PutFence.State.apply]
      exact ⟨hholds, (h r).2⟩
    · simp only [Function.update_of_ne hr, PutFence.State.apply]
      exact h r
  | fence =>
    obtain ⟨hfit, hlen⟩ := hc
    rw [mul_slot] at hfit
    have hsrc : ∀ i, ∃ buf, assemble junk (job i).lArchive = .ok buf ∧
        Packed buf (a.pending i) := fun i ↦ by
      refine assemble_eq junk (h i).1 (Nat.lt_of_le_of_lt ?_ hfit)
      exact Nat.mul_le_mul_right _ (a.pending_length_le i)
    obtain ⟨src, hsrc, hpacked⟩ := onRanks_of_exists hsrc
    have hbarrier : ∀ r, ∃ p, lcmPmBarrier junk (allgather fun i ↦ (job i).lArchive.size)
        (allgather src) (job r) = .ok p ∧ p.lArchive.Holds [] ∧
          p.gArchive.Holds (a.visible ++ a.gathered) := fun r ↦ by
      have hp : Packed (allgather src).flatten a.gathered := .flatMap hpacked
      have hnil : ([] : List Char).length = 0 * (STRING_LIMIT * 2) := (Nat.zero_mul _).symm
      obtain ⟨g, hg, hholds⟩ := putBack_eq junk (h r).2 hp hnil
        (by rw [List.nil_append, hp.length]; exact hfit) hlen
      rw [List.nil_append] at hg
      rw [lcmPmBarrier_eq h hpacked hfit, hg, ok_bind]
      exact ⟨_, rfl, (h r).1.clear, hholds⟩
    obtain ⟨job', hjob', hQ⟩ := onRanks_of_exists hbarrier
    refine ⟨job', ?_, fun r ↦ ⟨(hQ r).1, ?_⟩⟩
    · rw [mpiStep, hsrc, ok_bind, hjob']
    · rw [PutFence.State.visible_fence]
      exact (hQ r).2

/-- Conversely, a call that succeeds had what it needs. -/
theorem Refines.of_step (hn : 0 < n) (h : Refines job a) {c : MpiCall n} {job' : Fin n → Proc}
    (hok : mpiStep junk job c = .ok job') : CallFits a c := by
  cases c with
  | put i key value =>
    obtain ⟨p, hp, -⟩ := bind_eq_ok.mp hok
    obtain ⟨b, hb, -⟩ := bind_eq_ok.mp hp
    exact (h i).1.of_push (cstr_buf key) (cstr_buf value) hb
  | fence =>
    obtain ⟨src, hsrc, hok⟩ := bind_eq_ok.mp hok
    have hbarrier := onRanks_eq_ok.mp hok ⟨0, hn⟩
    obtain ⟨total, htotal, hrest⟩ := bind_eq_ok.mp hbarrier
    obtain ⟨size, hsize, -⟩ := bind_eq_ok.mp hrest
    rw [of_totalCount htotal, sum_sizes h, Nat.zero_add, Nat.mul_assoc] at hsize
    have hfit := (int_eq_ok.mp hsize).2
    have hpacked : ∀ i, Packed (src i) (a.pending i) := fun i ↦ by
      obtain ⟨buf, hbuf, hp⟩ := assemble_eq junk (h i).1
        (Nat.lt_of_le_of_lt (Nat.mul_le_mul_right _ (a.pending_length_le i)) hfit)
      have heq := onRanks_eq_ok.mp hsrc i
      rw [hbuf] at heq
      exact Except.ok.inj heq ▸ hp
    rw [lcmPmBarrier_eq h hpacked hfit] at hbarrier
    obtain ⟨g, hg, -⟩ := bind_eq_ok.mp hbarrier
    have hnil : ([] : List Char).length = 0 * (STRING_LIMIT * 2) := (Nat.zero_mul _).symm
    exact ⟨by rwa [mul_slot], length_le_of_putBack (h ⟨0, hn⟩).2 (.flatMap hpacked) hnil hg⟩

/-- `lcm_pm_getname` looks the key up from the oldest entry on. -/
theorem Refines.getname (h : Refines job a) (r : Fin n) (key : CString) :
    lcmPmGetname (job r) key = match a.visible.lookup key with
      | some value => .ok value
      | none => .error (.fault .nullPointer) := by
  have hall : 0 + (job r).gArchive.size = a.visible.length := by rw [Nat.zero_add, (h r).2.size]
  have hsearch := (h r).2.searchLoop key hall
  rw [List.drop_zero] at hsearch
  rw [lcmPmGetname, Archive.search]
  cases hfound : (job r).gArchive.searchLoop key.buf (job r).gArchive.size 0 with
  | none =>
    rw [hfound] at hsearch
    have hnone : a.visible.lookup key = none := by simpa using hsearch.symm
    rw [hnone]
  | some value =>
    rw [hfound] at hsearch
    obtain ⟨s, hs, hcstr⟩ := Option.map_eq_some_iff.mp hsearch.symm
    rw [hs]
    show inBlock (cstr value) = .ok s
    rw [← hcstr]
    rfl

end

/-! ## Runs -/

section

variable {n : ℕ} {job job' : Fin n → Proc} {a : PutFence.State n CString CString}
  {calls : List (MpiCall n)}

/-- Every call of the list has what it needs. -/
def Fits : PutFence.State n CString CString → List (MpiCall n) → Prop
  | _, [] => True
  | a, c :: calls => CallFits a c ∧ Fits (a.apply c) calls

instance decidableFits : (a : PutFence.State n CString CString) → (calls : List (MpiCall n)) →
    Decidable (Fits a calls)
  | _, [] => .isTrue trivial
  | a, c :: calls =>
    have := decidableFits (a.apply c) calls
    inferInstanceAs (Decidable (_ ∧ _))

variable (junk) in
theorem Refines.run (h : Refines job a) (hf : Fits a calls) :
    ∃ job', (mpiMachine n junk).run job calls = .ok job' ∧ Refines job' (a.applyAll calls) := by
  induction calls generalizing job a with
  | nil => exact ⟨job, rfl, h⟩
  | cons c calls ih =>
    obtain ⟨job₁, hstep, h₁⟩ := h.step junk hf.1
    obtain ⟨job₂, hrun, h₂⟩ := ih h₁ hf.2
    refine ⟨job₂, ?_, h₂⟩
    rw [Machine.run]
    show mpiStep junk job c >>= _ = _
    rw [hstep, ok_bind, hrun]

theorem Refines.of_run (hn : 0 < n) (h : Refines job a)
    (hok : (mpiMachine n junk).run job calls = .ok job') : Fits a calls := by
  induction calls generalizing job a with
  | nil => trivial
  | cons c calls ih =>
    obtain ⟨job₁, hstep, hrun⟩ := bind_eq_ok.mp hok
    have hc : CallFits a c := h.of_step hn hstep
    obtain ⟨job₂, hstep', h₁⟩ := h.step junk hc
    have he : job₁ = job₂ := Except.ok.inj (hstep.symm.trans hstep')
    subst he
    exact ⟨hc, ih h₁ hrun⟩

/-- What a whole schedule needs: strings that fit into a slot, epochs whose buffer has a size that is
an `int`, and room for all entries. -/
structure Limits (calls : List (MpiCall n)) : Prop where
  short : ∀ i key value, .put i key value ∈ calls →
    key.length < STRING_LIMIT ∧ value.length < STRING_LIMIT
  epoch : ∀ e ∈ (PutFence.history calls).epochs, e.length * 2 * STRING_LIMIT < 2 ^ 31
  total : (PutFence.history calls).visible.length ≤ 2 ^ 30

/-- Within its limits, a schedule that ends with a barrier has what it needs at every call: what a
rank has put by then is part of what is visible in the end. -/
theorem fits_of_limits (hshort : ∀ i key value, .put i key value ∈ calls →
      key.length < STRING_LIMIT ∧ value.length < STRING_LIMIT)
    (hepoch : ∀ e ∈ (a.applyAll (calls ++ [.fence])).epochs, e.length * 2 * STRING_LIMIT < 2 ^ 31)
    (htotal : (a.applyAll (calls ++ [.fence])).visible.length ≤ 2 ^ 30) :
    Fits a (calls ++ [.fence]) := by
  induction calls generalizing a with
  | nil =>
    refine ⟨⟨hepoch _ ?_, ?_⟩, trivial⟩
    · exact List.mem_append_right _ List.mem_cons_self
    · rw [← List.length_append, ← PutFence.State.visible_fence]
      exact htotal
  | cons c calls ih =>
    refine ⟨?_, ih (fun i k v hm ↦ hshort i k v (List.mem_cons_of_mem _ hm)) hepoch htotal⟩
    have hgathered : ∀ b : PutFence.State n CString CString, (b.apply .fence).gathered = [] := fun b ↦
      List.flatMap_eq_nil_iff.mpr fun _ _ ↦ rfl
    have hle := (a.apply c).length_applyAll_le (calls ++ [.fence])
    have hlast : ((a.apply c).applyAll (calls ++ [.fence])).gathered = [] := by
      rw [PutFence.State.applyAll_append]
      exact hgathered _
    have htotal' : ((a.apply c).applyAll (calls ++ [.fence])).visible.length ≤ 2 ^ 30 := htotal
    rw [hlast, List.length_nil] at hle
    cases c with
    | put i key value =>
      obtain ⟨hk, hv⟩ := hshort i key value List.mem_cons_self
      have hput := (a.apply (.put i key value)).pending_length_le i
      have hlen : ((a.apply (.put i key value)).pending i).length = (a.pending i).length + 1 := by
        simp [PutFence.State.apply]
      exact ⟨hk, hv, by omega⟩
    | fence =>
      refine ⟨hepoch _ ?_, ?_⟩
      · have hmem : a.gathered ∈ (a.apply .fence).epochs :=
          List.mem_append_right _ List.mem_cons_self
        exact PutFence.State.mem_epochs_applyAll hmem (calls ++ [.fence])
      · rw [← List.length_append, ← PutFence.State.visible_fence]
        omega

theorem short_of_fits (h : Fits a calls) : ∀ i key value, .put i key value ∈ calls →
    key.length < STRING_LIMIT ∧ value.length < STRING_LIMIT := by
  induction calls generalizing a with
  | nil => exact fun _ _ _ hm ↦ by cases hm
  | cons c calls ih =>
    intro i key value hm
    rcases List.mem_cons.mp hm with hm | hm
    · subst hm
      exact ⟨h.1.1, h.1.2.1⟩
    · exact ih h.2 i key value hm

theorem epoch_of_fits (h : Fits a calls)
    (ha : ∀ e ∈ a.epochs, e.length * 2 * STRING_LIMIT < 2 ^ 31) :
    ∀ e ∈ (a.applyAll calls).epochs, e.length * 2 * STRING_LIMIT < 2 ^ 31 := by
  induction calls generalizing a with
  | nil => exact ha
  | cons c calls ih =>
    refine ih h.2 ?_
    cases c with
    | put i key value => exact ha
    | fence =>
      intro e he
      rcases List.mem_append.mp he with he | he
      · exact ha e he
      · obtain rfl := List.mem_singleton.mp he
        exact h.1.1

variable (junk) in
/-- **A schedule that ends with a barrier runs to its end exactly within its limits**, and then the
ranks hold what was put. -/
theorem mpiRun_ok (hn : 0 < n) :
    (∃ job, mpiRun junk (calls ++ [.fence]) = .ok job) ↔ Limits (calls ++ [.fence]) := by
  constructor
  · rintro ⟨job, h⟩
    have hfits := refines_init.of_run hn h
    obtain ⟨job', -, hrefines⟩ := refines_init.run junk hfits
    exact ⟨short_of_fits hfits, epoch_of_fits hfits fun _ he ↦ (by cases he),
      (hrefines ⟨0, hn⟩).2.length_le⟩
  · intro h
    have hfits : Fits {} (calls ++ [.fence]) := fits_of_limits
      (fun i k v hm ↦ h.short i k v (List.mem_append_left _ hm)) h.epoch h.total
    obtain ⟨job, hjob, -⟩ := refines_init.run junk hfits
    exact ⟨job, hjob⟩

theorem refines_of_mpiRun (hn : 0 < n) (h : mpiRun junk calls = .ok job) :
    Refines job (PutFence.history calls) := by
  obtain ⟨job', hjob', hrefines⟩ := refines_init.run junk (refines_init.of_run hn h)
  have he : job = job' := Except.ok.inj (h.symm.trans hjob')
  rw [he]
  exact hrefines

theorem Archive.Holds.entries {b : Archive} {l : List (CString × CString)} (h : b.Holds l) :
    b.entries = l.map fun p ↦ (some p.1, some p.2) := by
  refine List.ext_getElem (by simp [Archive.entries, h.size]) fun i hi hi' ↦ ?_
  have hlt : i < l.length := by simpa using hi'
  simp [Archive.entries, (h.key i hlt).2, (h.value i hlt).2]

/-- **The key-value exchange.**  A schedule of short strings and of epochs whose buffers have an
`int` size runs to its end, unless there are more entries than there can be memory for.  After a
barrier the global archive of every rank is what that of any rank was before, followed by what each
rank has published since the last barrier, rank by rank and in order; the local archives are empty;
and a key that has been published once, by whichever rank and in whichever epoch, is found by all. -/
theorem mpi_exchange (calls : List (MpiCall n))
    (hshort : ∀ i key value, .put i key value ∈ calls →
      key.length < STRING_LIMIT ∧ value.length < STRING_LIMIT)
    (hepoch : ∀ e ∈ (PutFence.history (calls ++ [.fence])).epochs,
      e.length * 2 * STRING_LIMIT < 2 ^ 31) :
    ((PutFence.history (calls ++ [.fence])).visible.length ≤ 2 ^ 30 →
      ∃ job, mpiRun junk (calls ++ [.fence]) = .ok job) ∧
    ∀ job job', mpiRun junk calls = .ok job → mpiRun junk (calls ++ [.fence]) = .ok job' → ∀ r r',
      (job' r).gArchive.entries = (job r').gArchive.entries ++
        ((List.finRange n).flatMap (PutFence.history calls).pending).map
          (fun p ↦ (some p.1, some p.2)) ∧
      (job' r).lArchive.size = 0 ∧
      ∀ key value, (PutFence.history (calls ++ [.fence])).visible.filter (fun p ↦ p.1 = key)
        = [(key, value)] → lcmPmGetname (job' r) key = .ok value := by
  constructor
  · intro htotal
    obtain ⟨job, hjob, -⟩ := refines_init.run junk
      (fits_of_limits (a := {}) hshort hepoch htotal)
    exact ⟨job, hjob⟩
  · intro job job' hjob hjob' r r'
    have hn : 0 < n := Nat.lt_of_le_of_lt (Nat.zero_le _) r.isLt
    have h := refines_of_mpiRun hn hjob
    have h' := refines_of_mpiRun hn hjob'
    have hfence : PutFence.history (calls ++ [.fence]) = (PutFence.history calls).apply .fence :=
      PutFence.State.applyAll_append ..
    refine ⟨?_, ?_, ?_⟩
    · rw [(h' r).2.entries, (h r').2.entries, hfence, PutFence.State.visible_fence, List.map_append]
      rfl
    · rw [(h' r).1.size, hfence]
      rfl
    · intro key value honce
      rw [h'.getname, PutFence.lookup_eq_head?_filter, honce]
      rfl

/-- Two ranks publish a key each. -/
def twoKeys : List (MpiCall 2) :=
  [.put 0 (.single 'a' (by decide)) (.single 'x' (by decide)),
   .put 1 (.single 'b' (by decide)) (.single 'y' (by decide))]

theorem short_twoKeys : ∀ i key value, .put i key value ∈ twoKeys →
    key.length < STRING_LIMIT ∧ value.length < STRING_LIMIT := by
  intro i key value h
  rcases List.mem_cons.mp h with h | h
  · cases h
    decide
  · cases List.mem_singleton.mp h
    decide

theorem mpi_exchange_twoKeys : ∃ job, mpiRun (fun _ ↦ nul) (twoKeys ++ [.fence]) = .ok job ∧
    ∀ r, lcmPmGetname (job r) (.single 'b' (by decide)) = .ok (.single 'y' (by decide)) := by
  have hepoch : ∀ e ∈ (PutFence.history (twoKeys ++ [.fence])).epochs,
      e.length * 2 * STRING_LIMIT < 2 ^ 31 := by decide
  have hfits : Fits {} twoKeys := by decide
  obtain ⟨job, hjob, -⟩ := refines_init.run (fun _ ↦ nul) hfits
  have h := @mpi_exchange (fun _ ↦ nul) 2 twoKeys short_twoKeys hepoch
  obtain ⟨job', hjob'⟩ := h.1 (by decide)
  exact ⟨job', hjob', fun r ↦ (h.2 job job' hjob hjob' r 0).2.2 _ _ (by decide)⟩

/-- **When a lookup returns the latest value.**  The exchange is a put/fence interface that shows
each process the value of the latest epoch in which a key was put if and only if the schedule stays
within its limits and, for every key, that value is also the one of the earliest epoch: the global
archive is searched from its oldest entry on. -/
theorem mpi_visibility (hn : 0 < n) (calls : List (MpiCall n))
    (honce : PutFence.OncePerEpoch (PutFence.history (calls ++ [.fence]))) :
    (∃ job, mpiRun junk (calls ++ [.fence]) = .ok job ∧ ∀ r key value,
      PutFence.Latest (PutFence.history (calls ++ [.fence])) key value →
        lcmPmGetname (job r) key = .ok value) ↔
    Limits (calls ++ [.fence]) ∧ ∀ key value,
      PutFence.Latest (PutFence.history (calls ++ [.fence])) key value →
        PutFence.First (PutFence.history (calls ++ [.fence])) key value := by
  have hfirst {job : Fin n → Proc} (hjob : mpiRun junk (calls ++ [.fence]) = .ok job) (r : Fin n)
      (key value : CString) : lcmPmGetname (job r) key = .ok value ↔
        PutFence.First (PutFence.history (calls ++ [.fence])) key value := by
    rw [(refines_of_mpiRun hn hjob).getname, ← PutFence.lookup_visible honce]
    cases (PutFence.history (calls ++ [.fence])).visible.lookup key with
    | none => exact ⟨fun h ↦ (by cases h), fun h ↦ (by cases h)⟩
    | some v => exact ⟨fun h ↦ congrArg some (Except.ok.inj h), fun h ↦ by rw [Option.some.inj h]⟩
  refine ⟨fun ⟨job, hjob, hall⟩ ↦ ⟨(mpiRun_ok junk hn).mp ⟨job, hjob⟩, ?_⟩, ?_⟩
  · intro key value hl
    exact (hfirst hjob ⟨0, hn⟩ key value).mp (hall _ _ _ hl)
  · rintro ⟨hlimits, hall⟩
    obtain ⟨job, hjob⟩ := (mpiRun_ok junk hn).mpr hlimits
    exact ⟨job, hjob, fun r key value hl ↦ (hfirst hjob r key value).mpr (hall key value hl)⟩

/-- Behind a second barrier rank 1 publishes what rank 0 has published in front of the first. -/
def sameAgain : List (MpiCall 2) :=
  twoKeys ++ [.fence, .put 1 (.single 'a' (by decide)) (.single 'x' (by decide))]

theorem mpi_visibility_sameAgain :
    ∃ job, mpiRun (fun _ ↦ nul) (sameAgain ++ [.fence]) = .ok job ∧
      ∀ r key value, PutFence.Latest (PutFence.history (sameAgain ++ [.fence])) key value →
        lcmPmGetname (job r) key = .ok value := by
  have honce : PutFence.OncePerEpoch (PutFence.history (sameAgain ++ [.fence])) := by
    unfold PutFence.OncePerEpoch
    decide
  refine (mpi_visibility (by decide) sameAgain honce).mpr
    ⟨⟨fun i key value h ↦ ?_, by decide, by decide⟩, fun key value hl ↦ ?_⟩
  · rcases List.mem_append.mp h with h | h
    · rcases List.mem_append.mp h with h | h
      · exact short_twoKeys i key value h
      · rcases List.mem_cons.mp h with h | h
        · cases h
        · cases List.mem_singleton.mp h
          decide
    · cases List.mem_singleton.mp h
  · -- the two values of the key that is put twice are the same
    have hsame : ∀ p ∈ (PutFence.history (sameAgain ++ [.fence])).visible,
        (PutFence.history (sameAgain ++ [.fence])).visible.lookup p.1 = some p.2 := by decide
    obtain ⟨pre, e, post, he, hm, -⟩ := hl
    have hmem : e ∈ (PutFence.history (sameAgain ++ [.fence])).epochs := he ▸ by simp
    rw [← PutFence.lookup_visible honce]
    exact hsame _ (List.mem_flatten_of_mem hmem hm)

/-- One rank publishes a key again after a barrier. -/
def oneKeyTwice : List (MpiCall 1) :=
  [.put 0 (.single 'k' (by decide)) (.single 'x' (by decide)), .fence,
   .put 0 (.single 'k' (by decide)) (.single 'y' (by decide))]

/-- The lookup returns the value of the first epoch, not of the second. -/
theorem mpi_stale :
    PutFence.OncePerEpoch (PutFence.history (oneKeyTwice ++ [.fence])) ∧
    PutFence.Latest (PutFence.history (oneKeyTwice ++ [.fence])) (.single 'k' (by decide))
      (.single 'y' (by decide)) ∧
    ∃ job, mpiRun (fun _ ↦ nul) (oneKeyTwice ++ [.fence]) = .ok job ∧
      lcmPmGetname (job 0) (.single 'k' (by decide)) = .ok (.single 'x' (by decide)) := by
  refine ⟨by unfold PutFence.OncePerEpoch; decide,
    ⟨[[(.single 'k' (by decide), .single 'x' (by decide))]],
      [(.single 'k' (by decide), .single 'y' (by decide))], [], rfl, List.mem_cons_self, by simp⟩, ?_⟩
  have hfits : Fits {} (oneKeyTwice ++ [.fence]) := by decide
  obtain ⟨job, hjob, hrefines⟩ := refines_init.run (fun _ ↦ nul) hfits
  refine ⟨job, hjob, ?_⟩
  rw [hrefines.getname]
  rfl

end

end IbvBench

import IbvBench.TwoRank
import Mathlib.Data.List.Perm.Subperm
import Mathlib.Order.Bounds.Defs

/-!
# The map from queue pairs to ranks

The end of `init`.  A completion carries the number of a queue pair, and the handlers look up in
`qp2rank` which rank that is.  The table is a perfect hash: the number modulo `qp2rank_mod`, where the
modulus is found by trying one after the other, from the number of ranks on, until no two numbers
collide.  The table that marked the residues of the last attempt is then filled in with the ranks.
-/

set_option autoImplicit false

namespace IbvBench

open StepMachine

def INT32_MAX : ℕ := 2 ^ 31 - 1

/-- `(int*)calloc(j, sizeof(int))`. -/
def callocInts (j : ℕ) : List ℕ := List.replicate j 0

/-- Mark the residues of the numbers one by one, until one is marked already; the first component
says whether the loop came to its end. -/
def markResidues (j : ℕ) : (qpNums : List ℕ) → (b : List ℕ) → Exec (Bool × List ℕ)
  | [], b => .ok (true, b)
  | qpNum :: qpNums, b =>
    let k := qpNum % j
    match b[k]? with
    | none => .error (.fault .outOfTable)
    | some mark => if mark ≠ 0 then .ok (false, b) else markResidues j qpNums (b.set k 1)

/-- `while (j < INT32_MAX)`, with `todo` moduli left to try. -/
def searchMod (qpNums : List ℕ) : (todo j : ℕ) → (b : List ℕ) → Exec (ℕ × List ℕ)
  | 0, j, b => .ok (j, b)
  | todo + 1, j, _ => do
    let (all, b) ← markResidues j qpNums (callocInts j)
    if all then .ok (j, b) else searchMod qpNums todo (j + 1) b

/-- The loop that writes the ranks into the table, from rank `i` on. -/
def fillRanks (j : ℕ) : (i : ℕ) → (qpNums : List ℕ) → (b : List ℕ) → Exec (List ℕ)
  | _, [], b => .ok b
  | i, qpNum :: qpNums, b =>
    if qpNum % j < b.length then fillRanks j (i + 1) qpNums (b.set (qpNum % j) i)
    else .error (.fault .outOfTable)

/-- `device->qp2rank` and `device->qp2rank_mod`. -/
structure Qp2Rank where
  qp2rank : List ℕ
  qp2rankMod : ℕ
  deriving DecidableEq, Repr

/-- The construction of the map, for the numbers of the queue pairs to each rank. -/
def initQp2Rank (qpNums : List ℕ) : Exec Qp2Rank := do
  let (j, b) ← searchMod qpNums (INT32_MAX - qpNums.length) qpNums.length []
  mlogAssert (j != INT32_MAX) "Cannot find a suitable mod to hold qp2rank map\n"
  let b ← fillRanks j 0 qpNums b
  .ok { qp2rank := b, qp2rankMod := j }

/-- The residues of the numbers. -/
def residues (j : ℕ) (qpNums : List ℕ) : List ℕ := qpNums.map (· % j)

variable {qpNums : List ℕ} {j : ℕ} {b : List ℕ}

/-- Exactly these residues have been marked. -/
def Marks (j : ℕ) (b seen : List ℕ) : Prop :=
  b.length = j ∧ ∀ k < j, b[k]? = some (if k ∈ seen then 1 else 0)

theorem marks_calloc (j : ℕ) : Marks j (callocInts j) [] := by
  refine ⟨List.length_replicate, fun k hk ↦ ?_⟩
  rw [callocInts, List.getElem?_replicate, if_pos hk]
  rfl

theorem Marks.set {seen : List ℕ} (h : Marks j b seen) {k : ℕ} (hk : k < j) :
    Marks j (b.set k 1) (k :: seen) := by
  obtain ⟨hlen, hmark⟩ := h
  refine ⟨by rw [List.length_set, hlen], fun i hi ↦ ?_⟩
  by_cases he : i = k
  · subst he
    rw [List.getElem?_set_self (by omega), if_pos List.mem_cons_self]
  · rw [List.getElem?_set_ne (Ne.symm he), hmark i hi]
    simp [he]

variable (qpNums) in
/-- **The scan comes to its end exactly when no two residues are equal.** -/
theorem markResidues_eq {seen : List ℕ} (hj : 0 < j) (h : Marks j b seen) :
    ∃ b', markResidues j qpNums b
      = .ok (decide ((residues j qpNums).Nodup ∧ ∀ k ∈ residues j qpNums, k ∉ seen), b') ∧
      b'.length = j := by
  induction qpNums generalizing b seen with
  | nil => exact ⟨b, by simp [markResidues, residues], h.1⟩
  | cons qpNum qpNums ih =>
    have hk : qpNum % j < j := Nat.mod_lt _ hj
    have hmark := h.2 _ hk
    by_cases hseen : qpNum % j ∈ seen
    · refine ⟨b, ?_, h.1⟩
      have hfalse : ¬ ((residues j (qpNum :: qpNums)).Nodup ∧
          ∀ k ∈ residues j (qpNum :: qpNums), k ∉ seen) := fun ⟨_, hall⟩ ↦
        hall _ List.mem_cons_self hseen
      rw [if_pos hseen] at hmark
      rw [markResidues, hmark, decide_eq_false hfalse]
      rfl
    · obtain ⟨b', hb', hlen⟩ := ih (h.set hk)
      refine ⟨b', ?_, hlen⟩
      rw [if_neg hseen] at hmark
      rw [markResidues, hmark]
      simp only [ne_eq, not_true_eq_false, if_false]
      rw [hb']
      refine congrArg (fun c ↦ Except.ok (c, b')) (decide_eq_decide.mpr ?_)
      simp only [residues, List.map_cons, List.nodup_cons, List.mem_cons, not_or, forall_eq_or_imp]
      refine ⟨fun ⟨hn, hall⟩ ↦ ⟨⟨fun hm ↦ (hall _ hm).1 rfl, hn⟩, hseen, fun k hk ↦ (hall k hk).2⟩,
        fun ⟨⟨hm, hn⟩, _, hall⟩ ↦ ⟨hn, fun k hk ↦ ⟨fun he ↦ hm (he ▸ hk), hall k hk⟩⟩⟩

/-- **The search finds the least modulus**, if there is one below its bound. -/
theorem searchMod_eq {todo : ℕ} (hj : 0 < j) {good : ℕ} (hle : j ≤ good) (hlt : good < j + todo)
    (hgood : (residues good qpNums).Nodup) :
    ∃ m b', searchMod qpNums todo j b = .ok (m, b') ∧ b'.length = m ∧ j ≤ m ∧ m ≤ good ∧
      (residues m qpNums).Nodup ∧ ∀ i, j ≤ i → i < m → ¬ (residues i qpNums).Nodup := by
  induction todo generalizing j b with
  | zero => omega
  | succ todo ih =>
    obtain ⟨b', hb', hlen⟩ := markResidues_eq qpNums hj (marks_calloc j)
    have hiff : ((residues j qpNums).Nodup ∧ ∀ k ∈ residues j qpNums, k ∉ []) ↔
        (residues j qpNums).Nodup := ⟨And.left, fun h ↦ ⟨h, fun _ _ ↦ List.not_mem_nil⟩⟩
    by_cases hnow : (residues j qpNums).Nodup
    · refine ⟨j, b', ?_, hlen, Nat.le_refl _, hle, hnow, fun i h1 h2 ↦ by omega⟩
      rw [searchMod, hb', ok_bind]
      simp only [decide_eq_true (hiff.mpr hnow), if_true]
    · have hne : j ≠ good := fun he ↦ hnow (he ▸ hgood)
      obtain ⟨m, b'', hm, hlen', h1, h2, h3, h4⟩ := ih (b := b') (Nat.succ_pos j) (by omega)
        (by omega)
      refine ⟨m, b'', ?_, hlen', by omega, h2, h3, fun i hi him ↦ ?_⟩
      · rw [searchMod, hb', ok_bind]
        simp only [decide_eq_false (hiff.not.mpr hnow), Bool.false_eq_true, if_false]
        exact hm
      · rcases Nat.eq_or_lt_of_le hi with rfl | hlt'
        · exact hnow
        · exact h4 i hlt' him

/-- **Filling in the ranks**: no entry is overwritten by a later one. -/
theorem fillRanks_eq {i : ℕ} (hlen : b.length = j) (hj : 0 < j)
    (hnodup : (residues j qpNums).Nodup) :
    ∃ b', fillRanks j i qpNums b = .ok b' ∧ b'.length = j ∧
      (∀ m (hm : m < qpNums.length), b'[qpNums[m] % j]? = some (i + m)) ∧
      ∀ k, k ∉ residues j qpNums → b'[k]? = b[k]? := by
  induction qpNums generalizing b i with
  | nil => exact ⟨b, rfl, hlen, fun m hm ↦ (by cases hm), fun k _ ↦ rfl⟩
  | cons qpNum qpNums ih =>
    obtain ⟨hfresh, hnodup⟩ := List.nodup_cons.mp hnodup
    have hk : qpNum % j < b.length := by
      rw [hlen]
      exact Nat.mod_lt _ hj
    obtain ⟨b', hb', hlen', hfound, hframe⟩ := ih (b := b.set (qpNum % j) i) (i := i + 1)
      (by rw [List.length_set, hlen]) hnodup
    refine ⟨b', by rw [fillRanks, if_pos hk, hb'], hlen', fun m hm ↦ ?_, fun k hk' ↦ ?_⟩
    · cases m with
      | zero =>
        rw [List.getElem_cons_zero, hframe _ hfresh, List.getElem?_set_self hk]
        rfl
      | succ m =>
        rw [List.getElem_cons_succ, hfound m (by simpa using hm)]
        exact congrArg some (by omega)
    · obtain ⟨hne, hk'⟩ := not_or.mp (List.mem_cons.not.mp hk')
      rw [hframe k hk', List.getElem?_set_ne (Ne.symm hne)]

/-- Numbers below the bound are their own residues. -/
theorem residues_of_lt (h : ∀ qpNum ∈ qpNums, qpNum < j) : residues j qpNums = qpNums := by
  rw [residues]
  exact (List.map_congr_left fun qpNum hm ↦ Nat.mod_eq_of_lt (h qpNum hm)).trans (List.map_id _)

/-- Different numbers below a bound are at most as many as the bound says. -/
theorem length_le_of_lt {bound : ℕ} (hnodup : qpNums.Nodup) (h : ∀ qpNum ∈ qpNums, qpNum < bound) :
    qpNums.length ≤ bound := by
  have hsub : qpNums ⊆ List.range bound := fun x hx ↦ List.mem_range.mpr (h x hx)
  have hle := (List.Nodup.subperm hnodup hsub).length_le
  rwa [List.length_range] at hle

/-- **The map is built, and correct.**  For different queue-pair numbers the search ends before it has
tried all moduli, with the least one that is at least the number of ranks and tells the numbers
apart; no access is outside the table, and looking up the number of the queue pair to a rank gives
the rank. -/
theorem initQp2Rank_correct (hne : qpNums ≠ []) (hnodup : qpNums.Nodup)
    (hlt : ∀ qpNum ∈ qpNums, qpNum < INT32_MAX - 1) :
    ∃ m, initQp2Rank qpNums = .ok m ∧ m.qp2rankMod < INT32_MAX ∧
      IsLeast {j | qpNums.length ≤ j ∧ (qpNums.map (· % j)).Nodup} m.qp2rankMod ∧
      m.qp2rank.length = m.qp2rankMod ∧
      ∀ i (h : i < qpNums.length), m.qp2rank[qpNums[i] % m.qp2rankMod]? = some i := by
  have hpos : 0 < qpNums.length := List.length_pos_iff.mpr hne
  have hlen := length_le_of_lt hnodup hlt
  have hgood : (residues (INT32_MAX - 1) qpNums).Nodup := by rwa [residues_of_lt hlt]
  have hmax : INT32_MAX - 1 < INT32_MAX := by decide
  have hrange : INT32_MAX - 1 < qpNums.length + (INT32_MAX - qpNums.length) := by omega
  obtain ⟨j, b, hsearch, hb, hle, hle', hres, hleast⟩ :=
    searchMod_eq (b := []) hpos hlen hrange hgood
  obtain ⟨b', hfill, hb', hfound, -⟩ := fillRanks_eq (i := 0) hb (by omega) hres
  refine ⟨{ qp2rank := b', qp2rankMod := j }, ?_, ?_, ⟨⟨hle, hres⟩, ?_⟩, hb', ?_⟩
  · have hbne : (j != INT32_MAX) = true := by
      have hj : j ≠ INT32_MAX := by omega
      simpa using hj
    rw [initQp2Rank, hsearch, ok_bind]
    simp only [hbne, mlogAssert_true, ok_bind, hfill]
  · show j < INT32_MAX
    omega
  · rintro i ⟨hi, hi'⟩
    by_contra hlt'
    exact hleast i hi (Nat.lt_of_not_le hlt') hi'
  · intro i hi
    rw [hfound i hi, Nat.zero_add]

theorem initQp2Rank_correct_three : ∃ m, initQp2Rank [7, 4, 10] = .ok m ∧
    m.qp2rankMod < INT32_MAX ∧ m.qp2rank[10 % m.qp2rankMod]? = some 2 := by
  obtain ⟨m, hm, hlt, -, -, hfound⟩ := @initQp2Rank_correct [7, 4, 10] (by decide) (by decide)
    (by decide)
  exact ⟨m, hm, hlt, hfound 2 (by decide)⟩

/-- Four and ten collide modulo three, and so do seven and ten; modulo four none do. -/
example : initQp2Rank [7, 4, 10] = .ok { qp2rank := [1, 0, 2, 0], qp2rankMod := 4 } := by
  decide

/-! ### The two ranks of the benchmarks -/

/-- The rank with a number. -/
def rankOf : ℕ → Rank
  | 0 => .r0
  | _ => .r1

@[simp] theorem rankOf_toNat (r : Rank) : rankOf r.toNat = r := by cases r <;> rfl

/-- What a device of a two-process benchmark looks its queue pairs up in. -/
def Qp2Rank.lookup (m : Qp2Rank) (k : ℕ) : Rank := rankOf (m.qp2rank.getD k 0)

/-- **The map of `init` is the one the devices of the benchmarks are required to have.** -/
theorem exists_qp2rank (qpNum : Rank → ℕ) (hne : qpNum .r0 ≠ qpNum .r1)
    (hlt : ∀ i, qpNum i < INT32_MAX - 1) :
    ∃ m, initQp2Rank [qpNum .r0, qpNum .r1] = .ok m ∧
      ∀ i, m.lookup (qpNum i % m.qp2rankMod) = i := by
  obtain ⟨m, hm, -, -, -, hfound⟩ := @initQp2Rank_correct [qpNum .r0, qpNum .r1] (by simp)
    (by simpa using hne) (by simpa using ⟨hlt .r0, hlt .r1⟩)
  refine ⟨m, hm, fun i ↦ ?_⟩
  have hget : m.qp2rank[qpNum i % m.qp2rankMod]? = some i.toNat := by
    cases i with
    | r0 => exact hfound 0 Nat.zero_lt_two
    | r1 => exact hfound 1 Nat.one_lt_two
  rw [Qp2Rank.lookup, List.getD_eq_getElem?_getD, hget]
  exact rankOf_toNat i

end IbvBench

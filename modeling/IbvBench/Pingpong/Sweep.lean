import IbvBench.Lib.Prog
import IbvBench.Pingpong.VaryMsg
import Mathlib.Algebra.Ring.Int.Defs
import Mathlib.Algebra.Ring.Nat
import Mathlib.Data.List.Sort

/-!
# The sweep over the message sizes

`RUN_VARY_MSG` of `bench_common.hpp`, statement by statement: the size is a `size_t`, the counters
of the two inner loops are of type `int`, and `loop` and `skip` keep their values from one size to
the next.  What it emits are the calls of the lambda and the rows of the table.

`runVaryMsg_lockstep` is what two ranks rely on that go through the sweep side by side: which calls
are made, in which order, does not depend on who reports, and the threads of a rank divide the calls
of each size among them.
-/

set_option autoImplicit false

namespace IbvBench

open Prog

/-- What happens in a sweep. -/
inductive SweepEvent where
  /-- `f(msg_size, i)` -/
  | call (msg_size : ℕ) (i : ℤ)
  /-- A row, for a size, with the number of calls that the rates in it are divided by. -/
  | row (msg_size loop : ℕ)
  deriving DecidableEq, Repr

inductive SweepFault where
  /-- A signed integer overflowed. -/
  | overflow
  deriving DecidableEq, Repr

abbrev Sweep (α : Type) := Prog SweepFault SweepEvent α

/-- The sum of two ints. -/
def intAdd (x y : ℤ) : Sweep ℤ :=
  if -2 ^ 31 ≤ x + y ∧ x + y < 2 ^ 31 then pure (x + y) else fail .overflow

/-- A pass of an inner loop: `f(msg_size, i)`, and `i += step`. -/
def callPass (msg_size : ℕ) (step i : ℤ) : Sweep ℤ := do
  emit (.call msg_size i)
  intAdd i step

/-- `for (int i = iter.first; i < bound; i += iter.second) f(msg_size, i);` -/
def callLoop (msg_size : ℕ) (iter : ℤ × ℤ) (bound : ℤ) : Sweep ℤ :=
  loop (fun i ↦ i < bound) (callPass msg_size iter.2) iter.1

/-- The variables that are kept from one size to the next. -/
structure SweepVars where
  msg_size : ℕ
  loop : ℕ
  skip : ℕ

/-- `if (msg_size >= LARGE) { loop = TOTAL_LARGE; skip = SKIP_LARGE; }` -/
def SweepVars.switch (v : SweepVars) : SweepVars :=
  if LARGE ≤ v.msg_size then { v with loop := TOTAL_LARGE, skip := SKIP_LARGE } else v

/-- One size. -/
def sweepPass (report : ℤ) (iter : ℤ × ℤ) (v : SweepVars) : Sweep SweepVars := do
  let v := v.switch
  let _ ← callLoop v.msg_size iter v.skip
  let _ ← callLoop v.msg_size iter v.loop
  (if report ≠ 0 then emit (.row v.msg_size v.loop) else pure ())
  pure { v with msg_size := v.msg_size <<< 1 % 2 ^ 64 }

/-- `RUN_VARY_MSG(range, report, f, iter)` -/
def RUN_VARY_MSG (range : ℕ × ℕ) (report : ℤ) (iter : ℤ × ℤ) : Sweep SweepVars :=
  loop (fun v ↦ v.msg_size ≤ range.2) (sweepPass report iter)
    { msg_size := range.1, loop := TOTAL, skip := SKIP }

/-- The calls among the events. -/
def calls (out : List SweepEvent) : List (ℕ × ℤ) :=
  out.filterMap fun
    | .call msg_size i => some (msg_size, i)
    | .row _ _ => none

/-- The rows among the events. -/
def rows (out : List SweepEvent) : List (ℕ × ℕ) :=
  out.filterMap fun
    | .call _ _ => none
    | .row msg_size loop => some (msg_size, loop)

/-! ## What the sweep is for -/

/-- How often a size is measured, -/
def loopAt (msg_size : ℕ) : ℕ := if LARGE ≤ msg_size then TOTAL_LARGE else TOTAL

/-- and how often it is run before that. -/
def skipAt (msg_size : ℕ) : ℕ := if LARGE ≤ msg_size then SKIP_LARGE else SKIP

/-- The part of thread `t` out of `m` in the calls up to `bound`. -/
def slice (t m bound : ℕ) : List ℕ := (List.range bound).filter fun i ↦ i % m = t

/-- The calls of thread `t` for a size: those that warm up, and those that are measured. -/
def callsAt (t m msg_size : ℕ) : List (ℕ × ℤ) :=
  (slice t m (skipAt msg_size) ++ slice t m (loopAt msg_size)).map fun i : ℕ ↦ (msg_size, (i : ℤ))

/-! ### The slices -/

section

variable {t m bound i : ℕ}

theorem mem_slice : i ∈ slice t m bound ↔ i < bound ∧ i % m = t := by
  simp only [slice, List.mem_filter, List.mem_range, decide_eq_true_eq]

/-- The passes of the inner loop on thread `t`. -/
def passes (t m bound : ℕ) : ℕ := (bound + (m - 1 - t)) / m

theorem lt_passes (ht : t < m) {k : ℕ} : k < passes t m bound ↔ t + k * m < bound := by
  rw [passes, ← Nat.succ_le_iff, Nat.le_div_iff_mul_le (by omega), Nat.succ_mul]
  omega

/-- A slice is what the loop steps through. -/
theorem slice_eq_map (ht : t < m) :
    slice t m bound = (List.range (passes t m bound)).map fun k ↦ t + k * m := by
  have hpos : 0 < m := by omega
  refine List.Pairwise.eq_of_mem_iff (r := (· < ·)) ?_ ?_ ?_
  · exact List.pairwise_lt_range.filter _
  · refine List.pairwise_map.mpr (List.pairwise_lt_range.imp fun hlt ↦ ?_)
    exact Nat.add_lt_add_left (Nat.mul_lt_mul_of_pos_right hlt hpos) t
  · intro i
    rw [mem_slice, List.mem_map]
    constructor
    · rintro ⟨hlt, rfl⟩
      refine ⟨i / m, ?_, Nat.mod_add_div' i m⟩
      rw [List.mem_range, lt_passes (Nat.mod_lt i hpos), Nat.mod_add_div']
      exact hlt
    · rintro ⟨k, hk, rfl⟩
      refine ⟨(lt_passes ht).mp (List.mem_range.mp hk), ?_⟩
      rw [Nat.add_mul_mod_self_right, Nat.mod_eq_of_lt ht]

/-- **The slices of all threads are a partition.** -/
theorem flatMap_slice_perm (hm : 0 < m) (bound : ℕ) :
    ((List.range m).flatMap fun t ↦ slice t m bound).Perm (List.range bound) := by
  refine (List.perm_ext_iff_of_nodup ?_ List.nodup_range).mpr ?_
  · refine List.nodup_flatMap.mpr ⟨fun t _ ↦ List.nodup_range.filter _, ?_⟩
    refine List.pairwise_lt_range.imp fun hlt i hi hi' ↦ ?_
    rw [mem_slice] at hi hi'
    omega
  · intro i
    rw [List.mem_flatMap, List.mem_range]
    constructor
    · rintro ⟨t, -, hi⟩
      exact (mem_slice.mp hi).1
    · intro hi
      exact ⟨i % m, List.mem_range.mpr (Nat.mod_lt i hm), mem_slice.mpr ⟨hi, rfl⟩⟩

end

/-! ## The inner loops -/

section

variable {t m bound msg_size : ℕ}

theorem intAdd_ends {x y : ℤ} (h : -2 ^ 31 ≤ x + y) (h' : x + y < 2 ^ 31) :
    (intAdd x y).Ends [] (x + y) := by
  rw [intAdd, if_pos ⟨h, h'⟩]
  exact .pure _

theorem intAdd_fails {x y : ℤ} (h : 2 ^ 31 ≤ x + y) : (intAdd x y).Fails .overflow := by
  rw [intAdd, if_neg (by omega)]
  exact .fail _

theorem callPass_ends {i : ℕ} (h : i + m < 2 ^ 31) :
    (callPass msg_size m i).Ends [.call msg_size i] ((i + m : ℕ) : ℤ) := by
  have hadd : (intAdd (i : ℤ) m).Ends [] ((i : ℤ) + m) := intAdd_ends (by omega) (by omega)
  rw [Nat.cast_add]
  exact (Ends.emit _).bind hadd

theorem callPass_fails {i : ℕ} (h : 2 ^ 31 ≤ i + m) : (callPass msg_size m i).Fails .overflow :=
  (Ends.emit _).bind_fails (intAdd_fails (by omega))

/-- The counter of thread `t` in front of pass `k`. -/
def counter (t m k : ℕ) : ℤ := ((t + k * m : ℕ) : ℤ)

theorem counter_zero (t m : ℕ) : counter t m 0 = t := by
  rw [counter, Nat.zero_mul, Nat.add_zero]

theorem counter_pass {k : ℕ} (hlt : t + k * m < bound) (hmax : t + k * m + m < 2 ^ 31) :
    decide (counter t m k < bound) = true ∧
      (callPass msg_size m (counter t m k)).Ends [.call msg_size (counter t m k)]
        (counter t m (k + 1)) := by
  have hnext : counter t m (k + 1) = ((t + k * m + m : ℕ) : ℤ) := by
    rw [counter, Nat.succ_mul, Nat.add_assoc]
  rw [hnext]
  exact ⟨decide_eq_true (Int.ofNat_lt.mpr hlt), callPass_ends hmax⟩

variable (msg_size) in
/-- Thread `t` makes the calls of its slice, and leaves the loop unless its counter overflows. -/
theorem callLoop_ends (ht : t < m) (hmax : m + bound ≤ 2 ^ 31) :
    ∃ i, (callLoop msg_size (t, m) bound).Ends
      ((slice t m bound).map fun i ↦ .call msg_size (i : ℕ)) i := by
  have hlast : decide (counter t m (passes t m bound) < bound) = false := by
    have hge : ¬ t + passes t m bound * m < bound := (lt_passes ht).not.mp (Nat.lt_irrefl _)
    exact decide_eq_false (Int.ofNat_lt.not.mpr hge)
  have hloop : (loop (fun i : ℤ ↦ i < bound) (callPass msg_size m) (counter t m 0)).Ends
      ((List.range (passes t m bound)).flatMap fun k ↦ [.call msg_size (counter t m k)])
      (counter t m (passes t m bound)) := by
    refine Ends.loop (fun k hk ↦ ?_) hlast
    have hlt := (lt_passes ht).mp hk
    exact counter_pass hlt (by omega)
  rw [counter_zero, ← List.map_eq_flatMap] at hloop
  rw [slice_eq_map ht, List.map_map]
  exact ⟨_, hloop⟩

variable (msg_size) in
/-- Some thread's counter overflows when the number of threads is that large. -/
theorem callLoop_fails (hm : 0 < m) (hbound : 0 < bound) (hbound' : bound ≤ 2 ^ 31)
    (hmax : 2 ^ 31 < m + bound) :
    (callLoop msg_size (((bound - 1) % m : ℕ), m) bound).Fails .overflow := by
  have hend : (bound - 1) % m + (bound - 1) / m * m = bound - 1 := Nat.mod_add_div' ..
  -- the last call is that of the largest index
  have hlast : counter ((bound - 1) % m) m ((bound - 1) / m) = ((bound - 1 : ℕ) : ℤ) :=
    congrArg _ hend
  have hpass : ∀ k < (bound - 1) / m, decide (counter ((bound - 1) % m) m k < bound) = true ∧
      (callPass msg_size m (counter ((bound - 1) % m) m k)).Ends
        [.call msg_size (counter ((bound - 1) % m) m k)] (counter ((bound - 1) % m) m (k + 1)) := by
    intro k hk
    have hle : (k + 1) * m ≤ (bound - 1) / m * m := Nat.mul_le_mul_right m hk
    rw [Nat.succ_mul] at hle
    exact counter_pass (by omega) (by omega)
  have hloop : (loop (fun i : ℤ ↦ i < bound) (callPass msg_size m)
      (counter ((bound - 1) % m) m 0)).Fails .overflow := by
    refine Fails.loop hpass ?_ ?_
    · rw [hlast]
      exact decide_eq_true (Int.ofNat_lt.mpr (by omega))
    · rw [hlast]
      exact callPass_fails (by omega)
  rwa [counter_zero] at hloop

end

/-! ## The sizes -/

section

variable {t m first k : ℕ} {report : ℤ} {v : SweepVars}

/-- The variables behind a pass. -/
def SweepVars.next (v : SweepVars) : SweepVars :=
  { v.switch with msg_size := v.msg_size <<< 1 % 2 ^ 64 }

/-- What a thread does for a size, when the variables are these. -/
def SweepVars.events (report : ℤ) (t m : ℕ) (v : SweepVars) : List SweepEvent :=
  (slice t m v.skip ++ slice t m v.loop).map (fun i ↦ .call v.msg_size (i : ℕ)) ++
    if report ≠ 0 then [.row v.msg_size v.loop] else []

/-- The variables in front of pass `k`. -/
def varsAt (first : ℕ) : ℕ → SweepVars
  | 0 => { msg_size := first, loop := TOTAL, skip := SKIP }
  | k + 1 => (varsAt first k).next

@[simp] theorem SweepVars.switch_msg_size (v : SweepVars) : v.switch.msg_size = v.msg_size := by
  rw [SweepVars.switch]
  split <;> rfl

theorem SweepVars.switch_loop (v : SweepVars) :
    v.switch.loop = if LARGE ≤ v.msg_size then TOTAL_LARGE else v.loop := by
  rw [SweepVars.switch]
  split <;> rfl

theorem SweepVars.switch_skip (v : SweepVars) :
    v.switch.skip = if LARGE ≤ v.msg_size then SKIP_LARGE else v.skip := by
  rw [SweepVars.switch]
  split <;> rfl

theorem sweepPass_ends (ht : t < m) (hskip : m + v.switch.skip ≤ 2 ^ 31)
    (hloop : m + v.switch.loop ≤ 2 ^ 31) :
    (sweepPass report (t, m) v).Ends (v.switch.events report t m) v.next := by
  obtain ⟨i, hskip⟩ := callLoop_ends v.switch.msg_size ht hskip
  obtain ⟨j, hloop⟩ := callLoop_ends v.switch.msg_size ht hloop
  have hrow : (if report ≠ 0 then emit (.row v.switch.msg_size v.switch.loop) else pure () :
      Sweep Unit).Ends (if report ≠ 0 then [.row v.switch.msg_size v.switch.loop] else []) () := by
    split
    · exact .emit _
    · exact .pure _
  have hnext : (pure { v.switch with msg_size := v.switch.msg_size <<< 1 % 2 ^ 64 } :
      Sweep SweepVars).Ends [] v.next := by
    rw [SweepVars.switch_msg_size]
    exact .pure _
  rw [SweepVars.events, List.map_append, List.append_assoc, ← List.append_nil (ite ..)]
  unfold sweepPass
  exact hskip.bind (hloop.bind (hrow.bind hnext))

theorem varsAt_msg_size (hfirst : first < 2 ^ 64) :
    ∀ k, (varsAt first k).msg_size = first * 2 ^ k % 2 ^ 64
  | 0 => by rw [pow_zero, Nat.mul_one, Nat.mod_eq_of_lt hfirst]; rfl
  | k + 1 => by
    show (varsAt first k).msg_size <<< 1 % 2 ^ 64 = _
    rw [varsAt_msg_size hfirst k, Nat.shiftLeft_eq, pow_one, Nat.mod_mul_mod, Nat.mul_assoc,
      ← pow_succ]

theorem varsAt_msg_size_of_lt (hsize : first * 2 ^ k < 2 ^ 64) :
    (varsAt first k).msg_size = first * 2 ^ k := by
  have hfirst : first < 2 ^ 64 :=
    Nat.lt_of_le_of_lt (Nat.le_mul_of_pos_right _ (Nat.two_pow_pos k)) hsize
  rw [varsAt_msg_size hfirst, Nat.mod_eq_of_lt hsize]

theorem loopAt_le (msg_size : ℕ) : loopAt msg_size ≤ TOTAL := by
  rw [loopAt]
  split <;> decide

theorem loopAt_anti {a b : ℕ} (h : a ≤ b) : loopAt b ≤ loopAt a := by
  unfold loopAt
  split
  · split <;> decide
  · rw [if_neg (by omega)]

theorem skipAt_le_loopAt (msg_size : ℕ) : skipAt msg_size ≤ loopAt msg_size := by
  unfold skipAt loopAt
  split <;> decide

/-- Nothing has been switched as long as the sizes are small. -/
theorem varsAt_small : ∀ k, first * 2 ^ k < LARGE →
    varsAt first k = { msg_size := first * 2 ^ k, loop := TOTAL, skip := SKIP }
  | 0, _ => by rw [pow_zero, Nat.mul_one]; rfl
  | k + 1, hsmall => by
    have hnext : first * 2 ^ (k + 1) = first * 2 ^ k * 2 := by rw [pow_succ, Nat.mul_assoc]
    have hlarge : LARGE = 8192 := rfl
    rw [varsAt, varsAt_small k (by omega), SweepVars.next, SweepVars.switch,
      if_neg (by show ¬ LARGE ≤ first * 2 ^ k; omega), hnext]
    dsimp only
    rw [Nat.shiftLeft_eq, pow_one, Nat.mod_eq_of_lt (by omega)]

/-- The variables that go with a size. -/
def sizeVars (msg_size : ℕ) : SweepVars where
  msg_size := msg_size
  loop := loopAt msg_size
  skip := skipAt msg_size

/-- The two counts of a pass are those of its size, although they are never reset. -/
theorem varsAt_switch (hsize : first * 2 ^ k < 2 ^ 64) :
    (varsAt first k).switch = sizeVars (first * 2 ^ k) := by
  have hmsg := varsAt_msg_size_of_lt hsize
  unfold sizeVars loopAt skipAt
  by_cases hlarge : LARGE ≤ first * 2 ^ k
  · rw [SweepVars.switch, hmsg, if_pos hlarge, if_pos hlarge, if_pos hlarge]
  · rw [varsAt_small k (by omega), SweepVars.switch, if_neg hlarge, if_neg hlarge, if_neg hlarge]

end

/-! ## The whole sweep -/

/-- What a thread does for a size. -/
def eventsAt (report : ℤ) (t m msg_size : ℕ) : List SweepEvent :=
  (callsAt t m msg_size).map (fun c ↦ .call c.1 c.2) ++
    if report ≠ 0 then [.row msg_size (loopAt msg_size)] else []

section

variable {t m first second k K : ℕ} {report : ℤ}

variable (second) in
/-- The sizes of a sweep. -/
theorem exists_sizes (hfirst : 1 ≤ first) : ∃ K, ∀ k, first * 2 ^ k ≤ second ↔ k < K := by
  have hex : ∃ k, second < first * 2 ^ k :=
    ⟨second, Nat.lt_of_lt_of_le Nat.lt_two_pow_self (Nat.le_mul_of_pos_left _ hfirst)⟩
  refine ⟨Nat.find hex, fun k ↦ ?_⟩
  rw [Nat.lt_find_iff]
  constructor
  · intro hle j hj
    have hmono := Nat.mul_le_mul_left first (Nat.pow_le_pow_right (show 0 < 2 by decide) hj)
    exact Nat.not_lt.mpr (hmono.trans hle)
  · intro h
    exact Nat.not_lt.mp (h k (Nat.le_refl k))

theorem size_lt (hsecond : second < 2 ^ 63) (hle : first ≤ second)
    (hK : ∀ k, first * 2 ^ k ≤ second ↔ k < K) (hk : k ≤ K) : first * 2 ^ k < 2 ^ 64 := by
  rcases k with _ | k
  · rw [pow_zero, Nat.mul_one]
    omega
  · have hprev := (hK k).mpr hk
    rw [pow_succ, ← Nat.mul_assoc]
    omega

/-- **A thread goes through the sizes** and does for each of them what it has to do. -/
theorem RUN_VARY_MSG_ends (hle : first ≤ second) (hsecond : second < 2 ^ 63)
    (hK : ∀ k, first * 2 ^ k ≤ second ↔ k < K) (ht : t < m) (hmax : m + loopAt first ≤ 2 ^ 31) :
    (RUN_VARY_MSG (first, second) report (t, m)).Ends
      ((List.range K).flatMap fun k ↦ eventsAt report t m (first * 2 ^ k)) (varsAt first K) := by
  have hmsg : ∀ k ≤ K, (varsAt first k).msg_size = first * 2 ^ k :=
    fun k hk ↦ varsAt_msg_size_of_lt (size_lt hsecond hle hK hk)
  refine Ends.loop (s := varsAt first) (fun k hk ↦ ⟨?_, ?_⟩) ?_
  · rw [hmsg k hk.le]
    exact decide_eq_true ((hK k).mpr hk)
  · have hvars := varsAt_switch (size_lt hsecond hle hK hk.le)
    have hloop : loopAt (first * 2 ^ k) ≤ loopAt first :=
      loopAt_anti (Nat.le_mul_of_pos_right _ (Nat.two_pow_pos k))
    have hskip := skipAt_le_loopAt (first * 2 ^ k)
    have hpass : (sweepPass report (t, m) (varsAt first k)).Ends _ (varsAt first (k + 1)) :=
      sweepPass_ends ht (by rw [hvars, sizeVars]; dsimp only; omega)
        (by rw [hvars, sizeVars]; dsimp only; omega)
    rw [hvars, SweepVars.events] at hpass
    rw [eventsAt, callsAt, List.map_map]
    exact hpass
  · rw [hmsg K (Nat.le_refl K)]
    exact decide_eq_false ((hK K).not.mpr (Nat.lt_irrefl K))

theorem calls_append (l l' : List SweepEvent) : calls (l ++ l') = calls l ++ calls l' :=
  List.filterMap_append

theorem rows_append (l l' : List SweepEvent) : rows (l ++ l') = rows l ++ rows l' :=
  List.filterMap_append

theorem calls_eventsAt (report : ℤ) (t m msg_size : ℕ) :
    calls (eventsAt report t m msg_size) = callsAt t m msg_size := by
  have hrow : calls (if report ≠ 0 then [.row msg_size (loopAt msg_size)] else []) = [] := by
    split <;> rfl
  have hcalls : ∀ l : List (ℕ × ℤ), calls (l.map fun c ↦ .call c.1 c.2) = l := by
    intro l
    rw [calls, List.filterMap_map]
    exact List.filterMap_some
  rw [eventsAt, calls_append, hcalls, hrow, List.append_nil]

theorem rows_eventsAt (report : ℤ) (t m msg_size : ℕ) : rows (eventsAt report t m msg_size) =
    if report ≠ 0 then [(msg_size, loopAt msg_size)] else [] := by
  have hcalls : ∀ l : List (ℕ × ℤ), rows (l.map fun c ↦ .call c.1 c.2) = [] := by
    intro l
    rw [rows, List.filterMap_map]
    exact List.filterMap_eq_nil_iff.mpr fun _ _ ↦ rfl
  rw [eventsAt, rows_append, hcalls, List.nil_append]
  split <;> rfl

theorem calls_sweep (report : ℤ) (t m first K : ℕ) :
    calls ((List.range K).flatMap fun k ↦ eventsAt report t m (first * 2 ^ k)) =
      (List.range K).flatMap fun k ↦ callsAt t m (first * 2 ^ k) := by
  rw [calls, List.filterMap_flatMap]
  exact List.flatMap_congr fun k _ ↦ calls_eventsAt ..

/-- **Ranks that sweep side by side stay in step.**  As long as no counter overflows, a sweep makes
the calls for the sizes `first * 2 ^ k` up to `second`, in this order: for each of them those that
warm up and then those that are measured, as often as the size asks for.  Who reports makes the same
calls as who does not; and the slices of the threads are a partition of the calls that the rates in
the rows are divided by, and of those that warm up. -/
theorem runVaryMsg_lockstep (hfirst : 1 ≤ first) (hle : first ≤ second) (hsecond : second < 2 ^ 31)
    (hm : 1 ≤ m) (hmax : m + loopAt first ≤ 2 ^ 31) :
    ∃ K, (∀ k, first * 2 ^ k ≤ second ↔ k < K) ∧
      (∀ t < m, ∀ report : ℤ, ∃ out v, (RUN_VARY_MSG (first, second) report (t, m)).Ends out v ∧
        calls out = (List.range K).flatMap (fun k ↦ callsAt t m (first * 2 ^ k)) ∧
        rows out = if report ≠ 0
          then (List.range K).map fun k ↦ (first * 2 ^ k, loopAt (first * 2 ^ k)) else []) ∧
      ∀ k < K,
        ((List.range m).flatMap fun t ↦ slice t m (skipAt (first * 2 ^ k))).Perm
          (List.range (skipAt (first * 2 ^ k))) ∧
        ((List.range m).flatMap fun t ↦ slice t m (loopAt (first * 2 ^ k))).Perm
          (List.range (loopAt (first * 2 ^ k))) := by
  obtain ⟨K, hK⟩ := exists_sizes second hfirst
  refine ⟨K, hK, fun t ht report ↦ ?_, fun k _ ↦ ⟨flatMap_slice_perm hm _, flatMap_slice_perm hm _⟩⟩
  refine ⟨_, _, RUN_VARY_MSG_ends hle (by omega) hK ht hmax, calls_sweep .., ?_⟩
  · rw [rows, List.filterMap_flatMap]
    have hrow : ∀ k ∈ List.range K, List.filterMap _ (eventsAt report t m (first * 2 ^ k)) = _ :=
      fun k _ ↦ rows_eventsAt report t m (first * 2 ^ k)
    rw [List.flatMap_congr hrow]
    split
    · exact List.map_eq_flatMap.symm
    · exact List.flatMap_eq_nil_iff.mpr fun _ _ ↦ rfl

theorem runVaryMsg_lockstep_twoThreads : ∃ K, (∀ k, 8 * 2 ^ k ≤ 65536 ↔ k < K) ∧
    (∀ report : ℤ, ∃ out v, (RUN_VARY_MSG (8, 65536) report (1, 2)).Ends out v ∧
      calls out = (List.range K).flatMap fun k ↦ callsAt 1 2 (8 * 2 ^ k)) ∧
    ∀ k < K, (slice 0 2 (loopAt (8 * 2 ^ k)) ++ slice 1 2 (loopAt (8 * 2 ^ k))).Perm
      (List.range (loopAt (8 * 2 ^ k))) := by
  obtain ⟨K, hK, hall, hslices⟩ := @runVaryMsg_lockstep 2 8 65536 (by decide) (by decide)
    (by decide) (by decide) (by decide)
  refine ⟨K, hK, fun report ↦ ?_, fun k hk ↦ ?_⟩
  · obtain ⟨out, v, hends, hcalls, -⟩ := hall 1 (by decide) report
    exact ⟨out, v, hends, hcalls⟩
  · simpa [List.range_succ] using (hslices k hk).2

/-- The counter of a thread overflows when there are as many threads as ints, -/
theorem lockstep_overflow : (RUN_VARY_MSG (8, 8) 0 (1, 2147483647)).Fails .overflow ∧
    ¬ ∃ out v, (RUN_VARY_MSG (8, 8) 0 (1, 2147483647)).Ends out v := by
  have hfails : (RUN_VARY_MSG (8, 8) 0 (1, 2147483647)).Fails .overflow := ⟨3, rfl⟩
  exact ⟨hfails, fun ⟨_, _, hends⟩ ↦ hends.not_fails hfails⟩

theorem sweepPass_fails {v : SweepVars} (hm : 0 < m) (hskip : 0 < v.switch.skip)
    (hloop : 0 < v.switch.loop) (hskip' : v.switch.skip ≤ 2 ^ 31) (hloop' : v.switch.loop ≤ 2 ^ 31)
    (hmax : 2 ^ 31 < m + v.switch.loop) : ∃ t < m, (sweepPass report (t, m) v).Fails .overflow := by
  unfold sweepPass
  by_cases hwarm : m + v.switch.skip ≤ 2 ^ 31
  · have ht : (v.switch.loop - 1) % m < m := Nat.mod_lt _ hm
    obtain ⟨i, hends⟩ := callLoop_ends v.switch.msg_size ht hwarm
    exact ⟨_, ht, hends.bind_fails (callLoop_fails _ hm hloop hloop' hmax).bind⟩
  · exact ⟨_, Nat.mod_lt _ hm, (callLoop_fails _ hm hskip hskip' (by omega)).bind⟩

/-- and exactly when the number of threads and the calls of the first size are together too many. -/
theorem RUN_VARY_MSG_ends_iff (hfirst : 1 ≤ first) (hle : first ≤ second)
    (hsecond : second < 2 ^ 63) (hm : 0 < m) :
    (∀ t < m, ∃ out v, (RUN_VARY_MSG (first, second) report (t, m)).Ends out v) ↔
      m + loopAt first ≤ 2 ^ 31 := by
  constructor
  · intro hall
    by_contra hmax
    have hvars : (varsAt first 0).switch = sizeVars (first * 2 ^ 0) := varsAt_switch (by omega)
    rw [pow_zero, Nat.mul_one] at hvars
    have hloop := loopAt_le first
    have hskip := skipAt_le_loopAt first
    have htotal : TOTAL = 4000 := rfl
    have hpos : 0 < skipAt first := by
      unfold skipAt
      split <;> decide
    obtain ⟨t, ht, hfails⟩ : ∃ t < m,
        (sweepPass report (t, m) (varsAt first 0)).Fails .overflow := by
      refine sweepPass_fails hm ?_ ?_ ?_ ?_ ?_ <;> rw [hvars, sizeVars] <;> dsimp only <;> omega
    obtain ⟨out, v, hends⟩ := hall t ht
    have hrun : (RUN_VARY_MSG (first, second) report (t, m)).Fails .overflow :=
      Fails.loop_first (decide_eq_true hle) hfails
    exact hends.not_fails hrun
  · intro hmax t ht
    obtain ⟨K, hK⟩ := exists_sizes second hfirst
    exact ⟨_, _, RUN_VARY_MSG_ends hle hsecond hK ht hmax⟩

/-! ### The sizes of the calls -/

/-- The loop of `runVaryMsg`, from pass `j` on. -/
theorem varyMsgLoop_eq (hle : first ≤ second) (hsecond : second < 2 ^ 63)
    (hK : ∀ k, first * 2 ^ k ≤ second ↔ k < K) {fuel j : ℕ} (hj : j ≤ K) (hfuel : K ≤ j + fuel) :
    varyMsgLoop second fuel (varsAt first j).loop (varsAt first j).skip (first * 2 ^ j) =
      (List.range' j (K - j)).flatMap fun k ↦
        List.replicate (skipAt (first * 2 ^ k)) (first * 2 ^ k) ++
          List.replicate (loopAt (first * 2 ^ k)) (first * 2 ^ k) := by
  induction fuel generalizing j with
  | zero =>
    rw [show K - j = 0 by omega]
    rfl
  | succ fuel ih =>
    rw [varyMsgLoop]
    by_cases hlast : first * 2 ^ j ≤ second
    · have hlt := (hK j).mp hlast
      have hsize := size_lt hsecond hle hK hj
      have hswitch := varsAt_switch hsize
      have hmsg := varsAt_msg_size_of_lt hsize
      have hnext : (first * 2 ^ j) <<< 1 = first * 2 ^ (j + 1) := by
        rw [Nat.shiftLeft_eq, pow_one, Nat.mul_assoc, ← pow_succ]
      have hloop := (varsAt first j).switch_loop
      have hskip := (varsAt first j).switch_skip
      rw [hmsg] at hloop hskip
      rw [if_pos hlast, ← hloop, ← hskip, hnext]
      have hrest := ih (show j + 1 ≤ K from hlt) (by omega)
      rw [show K - j = (K - (j + 1)) + 1 by omega, List.range'_succ, List.flatMap_cons, ← hrest,
        hswitch]
      exact congrArg _ (by rw [varsAt, SweepVars.next, hswitch])
    · have hge := (hK j).not.mp hlast
      rw [if_neg hlast, show K - j = 0 by omega]
      rfl

/-- `runVaryMsg` is the size of every call. -/
theorem runVaryMsg_eq (hfirst : 1 ≤ first) (hle : first ≤ second) (hsecond : second < 2 ^ 63) :
    ∃ out v, (RUN_VARY_MSG (first, second) report (0, 1)).Ends out v ∧
      (calls out).map Prod.fst = runVaryMsg (first, second) := by
  obtain ⟨K, hK⟩ := exists_sizes second hfirst
  have hlength : K ≤ second + 1 := by
    by_contra hlt
    have hsize := (hK (second + 1)).mpr (by omega)
    have hpow : second + 1 < 2 ^ (second + 1) := Nat.lt_two_pow_self
    have hmul : 2 ^ (second + 1) ≤ first * 2 ^ (second + 1) := Nat.le_mul_of_pos_left _ hfirst
    omega
  have hloop := loopAt_le first
  have htotal : TOTAL = 4000 := rfl
  have hmax : 1 + loopAt first ≤ 2 ^ 31 := by omega
  refine ⟨_, _, RUN_VARY_MSG_ends hle hsecond hK Nat.zero_lt_one hmax, ?_⟩
  have hrun := varyMsgLoop_eq hle hsecond hK (Nat.zero_le K) (show K ≤ 0 + (second + 1) by omega)
  rw [pow_zero, Nat.mul_one, Nat.sub_zero, ← List.range_eq_range'] at hrun
  rw [runVaryMsg]
  refine Eq.trans ?_ hrun.symm
  rw [calls_sweep, List.map_flatMap]
  refine List.flatMap_congr fun k _ ↦ ?_
  have hslice : ∀ bound, slice 0 1 bound = List.range bound := fun bound ↦
    List.filter_eq_self.mpr fun i _ ↦ decide_eq_true (Nat.mod_one i)
  rw [callsAt, hslice, hslice, List.map_map, List.map_append]
  simp only [Function.comp_def, List.map_const', List.length_range]

end

end IbvBench

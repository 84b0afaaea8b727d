import Mathlib.Data.List.Pairwise
import Mathlib.Tactic.Common

/-!
# The sequence of rounds

`RUN_VARY_MSG` of `bench_common.hpp` calls the lambda of a benchmark for a sequence of message sizes
that doubles from `range.first` up to `range.second`, each size `skip` times to warm up and `loop`
times to measure.  `runVaryMsg` is the size of every call, in order.
-/

set_option autoImplicit false

namespace IbvBench

def LARGE : ℕ := 8192

def TOTAL : ℕ := 4000

def SKIP : ℕ := 1000

def TOTAL_LARGE : ℕ := 1000

def SKIP_LARGE : ℕ := 100

/-- The loop of `RUN_VARY_MSG` from `msgSize` on.  The size doubles, so it is past `last` after at
most as many rounds of the loop as it is below `last` now. -/
def varyMsgLoop (last : ℕ) : (fuel loop skip msgSize : ℕ) → List ℕ
  | 0, _, _, _ => []
  | fuel + 1, loop, skip, msgSize =>
    if msgSize ≤ last then
      let loop := if LARGE ≤ msgSize then TOTAL_LARGE else loop
      let skip := if LARGE ≤ msgSize then SKIP_LARGE else skip
      List.replicate skip msgSize ++ List.replicate loop msgSize ++
        varyMsgLoop last fuel loop skip (msgSize <<< 1)
    else []

/-- The message size of every call of the lambda. -/
def runVaryMsg (range : ℕ × ℕ) : List ℕ :=
  varyMsgLoop range.2 (range.2 + 1) TOTAL SKIP range.1

variable {last fuel loop skip msgSize n : ℕ}

/-- The loop ends because the size is past `last`, whatever the fuel. -/
theorem varyMsgLoop_fuel (hpos : 1 ≤ msgSize) (h : last < msgSize + fuel) :
    varyMsgLoop last (fuel + 1) loop skip msgSize = varyMsgLoop last fuel loop skip msgSize := by
  induction fuel generalizing loop skip msgSize with
  | zero =>
    have hlast : ¬ msgSize ≤ last := by omega
    simp only [varyMsgLoop, hlast, if_false]
  | succ fuel ih =>
    have hnext : ∀ loop skip, varyMsgLoop last (fuel + 1) loop skip (msgSize <<< 1)
        = varyMsgLoop last fuel loop skip (msgSize <<< 1) := fun _ _ ↦ ih (by omega) (by omega)
    rw [varyMsgLoop]
    conv_rhs => rw [varyMsgLoop]
    simp only [hnext]

theorem mem_varyMsgLoop (h : n ∈ varyMsgLoop last fuel loop skip msgSize) :
    msgSize ≤ n ∧ n ≤ last := by
  induction fuel generalizing loop skip msgSize with
  | zero => cases h
  | succ fuel ih =>
    rw [varyMsgLoop] at h
    split at h
    · rename_i hle
      rcases List.mem_append.mp h with h | h
      · have hn : n = msgSize := by
          rcases List.mem_append.mp h with h | h <;> exact List.eq_of_mem_replicate h
        exact ⟨Nat.le_of_eq hn.symm, hn ▸ hle⟩
      · obtain ⟨h1, h2⟩ := ih h
        exact ⟨by omega, h2⟩
    · cases h

theorem varyMsgLoop_pairwise : (varyMsgLoop last fuel loop skip msgSize).Pairwise (· ≤ ·) := by
  induction fuel generalizing loop skip msgSize with
  | zero => exact .nil
  | succ fuel ih =>
    rw [varyMsgLoop]
    split
    · refine List.pairwise_append.mpr ⟨?_, ih, ?_⟩
      · rw [List.replicate_append_replicate]
        exact List.pairwise_replicate.mpr (.inr (Nat.le_refl _))
      · intro a ha b hb
        have ha' : a = msgSize := by
          rcases List.mem_append.mp ha with ha | ha <;> exact List.eq_of_mem_replicate ha
        have hb' := (mem_varyMsgLoop hb).1
        omega
    · exact .nil

/-- No size is below the first or above the last of the range. -/
theorem mem_runVaryMsg {range : ℕ × ℕ} (h : n ∈ runVaryMsg range) : range.1 ≤ n ∧ n ≤ range.2 :=
  mem_varyMsgLoop h

/-- The sizes never decrease. -/
theorem runVaryMsg_pairwise (range : ℕ × ℕ) : (runVaryMsg range).Pairwise (· ≤ ·) :=
  varyMsgLoop_pairwise

end IbvBench

import Mathlib.Data.List.Basic
import Mathlib.Tactic.Common

/-!
# Counting along a script that is run over and over

A *script* is a list of actions that a process performs from the first to the last, and then from
the first again.  A position is a pair `(iter, pc)`: `iter` whole passes have been made, and in the
current one the actions before index `pc` have been performed.

`count p script iter pc` is how many actions satisfying `p` have been performed by then.  The one
fact about it that matters is `count_next`: performing one action adds one or nothing, *also* at the
end of a pass, where the position wraps around.  So a quantity that a run maintains in step with the
script — the messages a process has sent, the completions it has consumed — is equal to a `count`,
and comparing two processes becomes arithmetic on counts.
-/

set_option autoImplicit false

namespace Script

variable {α : Type}

/-- How many of the actions performed at position `(iter, pc)` satisfy `p`. -/
def count (p : α → Bool) (script : List α) (iter pc : ℕ) : ℕ :=
  iter * script.countP p + (script.take pc).countP p

/-- The position after one more action. -/
def next (script : List α) (iter pc : ℕ) : ℕ × ℕ :=
  if pc + 1 = script.length then (iter + 1, 0) else (iter, pc + 1)

theorem next_pc_lt {script : List α} {iter pc : ℕ} (h : pc < script.length) :
    (next script iter pc).2 < script.length := by
  rw [next]
  split <;> simp only <;> omega

theorem countP_take_succ (p : α → Bool) {script : List α} {pc : ℕ} (h : pc < script.length) :
    (script.take (pc + 1)).countP p
      = (script.take pc).countP p + if p script[pc] then 1 else 0 := by
  rw [List.take_succ_eq_append_getElem h, List.countP_append, List.countP_singleton]

/-- **Performing the action at `pc` adds one exactly when it satisfies `p`**, at the end of a pass
too. -/
theorem count_next (p : α → Bool) {script : List α} {iter pc : ℕ} (h : pc < script.length) :
    count p script (next script iter pc).1 (next script iter pc).2
      = count p script iter pc + if p script[pc] then 1 else 0 := by
  rw [next]
  split
  · rename_i hlast
    have hall : (script.take (pc + 1)).countP p = script.countP p := by
      rw [hlast, List.take_length]
    rw [countP_take_succ p h] at hall
    simp only [count, List.take_zero, List.countP_nil, Nat.add_zero, Nat.succ_mul]
    omega
  · simp only [count]
    rw [countP_take_succ p h]
    omega

end Script

import Mathlib.Data.List.Basic

/-!
# Machines that read a list and emit one

A machine reads letters one at a time; each of them changes the state and emits a list of outputs.
What it emits for a text is determined by the text alone, so that two such machines are compared by a
relation between their states, and the outputs for a text by cutting it into pieces.

* `Mealy.outputs_append`, `Mealy.after_append` — a text in two pieces.
* `Mealy.Simulates.outputs_eq` — the one induction for two machines: a relation that every letter
  preserves, with the same outputs, makes the outputs for every text the same.
* `Mealy.outputs_of_silent` — the one induction for letters that neither move nor emit.
-/

set_option autoImplicit false

/-- A machine with states `σ` that reads letters `α` and emits `β`. -/
structure Mealy (σ α β : Type) where
  step : σ → α → σ × List β

namespace Mealy

variable {σ τ α β : Type} (M : Mealy σ α β) (N : Mealy τ α β)

/-- The state after a text. -/
def after : σ → List α → σ
  | s, [] => s
  | s, a :: l => after (M.step s a).1 l

/-- What is emitted for a text. -/
def outputs : σ → List α → List β
  | _, [] => []
  | s, a :: l => (M.step s a).2 ++ outputs (M.step s a).1 l

section

variable {M N}
variable {s : σ} {t : τ} {l l' : List α} {R : σ → τ → Prop}

theorem after_append : M.after s (l ++ l') = M.after (M.after s l) l' := by
  induction l generalizing s with
  | nil => rfl
  | cons a l ih => exact ih

theorem outputs_append : M.outputs s (l ++ l') = M.outputs s l ++ M.outputs (M.after s l) l' := by
  induction l generalizing s with
  | nil => rfl
  | cons a l ih => rw [List.cons_append, outputs, ih, outputs, after, List.append_assoc]

/-- What is emitted is never taken back. -/
theorem outputs_prefix : M.outputs s l <+: M.outputs s (l ++ l') := by
  rw [outputs_append]
  exact List.prefix_append ..

/-- A relation between the states of two machines that every letter preserves, with the same
outputs. -/
def Simulates (M : Mealy σ α β) (N : Mealy τ α β) (R : σ → τ → Prop) : Prop :=
  ∀ s t a, R s t → R (M.step s a).1 (N.step t a).1 ∧ (M.step s a).2 = (N.step t a).2

/-- Related states emit the same for every text. -/
theorem Simulates.outputs_eq (h : Simulates M N R) (hR : R s t) :
    M.outputs s l = N.outputs t l := by
  induction l generalizing s t with
  | nil => rfl
  | cons a l ih =>
    obtain ⟨hnext, hout⟩ := h s t a hR
    rw [outputs, outputs, hout, ih hnext]

/-- The letter neither moves the machine nor makes it emit. -/
def Silent (M : Mealy σ α β) (s : σ) (a : α) : Prop := M.step s a = (s, [])

/-- Nor does a text of such letters. -/
theorem after_of_silent (h : ∀ a ∈ l, M.Silent s a) : M.after s l = s := by
  induction l with
  | nil => rfl
  | cons a l ih =>
    rw [Mealy.after, h a List.mem_cons_self]
    exact ih fun b hb ↦ h b (List.mem_cons_of_mem a hb)

theorem outputs_of_silent (h : ∀ a ∈ l, M.Silent s a) : M.outputs s l = [] := by
  induction l with
  | nil => rfl
  | cons a l ih =>
    rw [outputs, h a List.mem_cons_self]
    exact ih fun b hb ↦ h b (List.mem_cons_of_mem a hb)

end

end Mealy

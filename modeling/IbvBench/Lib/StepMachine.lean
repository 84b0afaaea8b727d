import Mathlib.Tactic.Common

/-!
# Machines whose steps may block or fault

A *machine* takes labelled steps, and each step is a computation with three outcomes: it returns
the next state, it is **blocked** (it cannot be taken yet), or it **faults** (the program has gone
wrong, and there is no next state).  Interleaving semantics fall out of this directly: the labels
say who moves, a spinning loop is a blocked step, a failed assertion is a fault.

* `Safe m Q` — the computation `m` does not fault, and what it returns satisfies `Q`.  The rules
  `Safe.bind`, `Safe.mono` and friends are the usual ones for partial correctness, except that a
  fault is never acceptable.
* `Proceeds m` — the computation does not block.
* `Machine.Reachable` — the states of the runs.
* `Machine.reachable_safe` — the one induction: an inductive invariant, in the `Safe` sense, holds
  in every reachable state, and no step out of a reachable state faults.
-/

set_option autoImplicit false

namespace StepMachine

/-- Why a computation returned nothing. -/
inductive Stop (φ : Type) where
  /-- It cannot proceed in this state. -/
  | blocked
  /-- It went wrong. -/
  | fault (f : φ)
  deriving DecidableEq, Repr

/-- A computation that may block or fault. -/
abbrev Comp (φ α : Type) := Except (Stop φ) α

variable {φ α β σ lab : Type}

@[simp] theorem ok_bind (a : α) (k : α → Comp φ β) : ((.ok a : Comp φ α) >>= k) = k a := rfl

@[simp] theorem error_bind (e : Stop φ) (k : α → Comp φ β) :
    ((.error e : Comp φ α) >>= k) = .error e := rfl

/-- The computation does not fault, and what it returns satisfies `Q`. -/
def Safe (m : Comp φ α) (Q : α → Prop) : Prop :=
  match m with
  | .ok a => Q a
  | .error .blocked => True
  | .error (.fault _) => False

@[simp] theorem safe_ok {a : α} {Q : α → Prop} : Safe (.ok a : Comp φ α) Q ↔ Q a := Iff.rfl

@[simp] theorem safe_blocked {Q : α → Prop} : Safe (.error .blocked : Comp φ α) Q := trivial

@[simp] theorem safe_fault {f : φ} {Q : α → Prop} :
    ¬ Safe (.error (.fault f) : Comp φ α) Q := fun h ↦ h

theorem Safe.mono {m : Comp φ α} {Q R : α → Prop} (h : Safe m Q) (hQR : ∀ a, Q a → R a) :
    Safe m R := by
  rcases m with e | a
  · rcases e with _ | f
    · trivial
    · exact h
  · exact hQR a h

/-- Sequencing: the first computation establishes what the second one needs. -/
theorem Safe.bind {m : Comp φ α} {k : α → Comp φ β} {Q : α → Prop} {R : β → Prop}
    (h : Safe m Q) (hk : ∀ a, Q a → Safe (k a) R) : Safe (m >>= k) R := by
  rcases m with e | a
  · rcases e with _ | f
    · trivial
    · exact h
  · exact hk a h

theorem Safe.and {m : Comp φ α} {Q R : α → Prop} (hQ : Safe m Q) (hR : ∀ a, m = .ok a → R a) :
    Safe m fun a ↦ Q a ∧ R a := by
  rcases m with e | a
  · rcases e with _ | f
    · trivial
    · exact hQ
  · exact ⟨hQ, hR a rfl⟩

theorem Safe.of_ok {m : Comp φ α} {Q : α → Prop} {a : α} (h : Safe m Q) (hm : m = .ok a) :
    Q a := by
  subst hm; exact h

theorem Safe.ne_fault {m : Comp φ α} {Q : α → Prop} (h : Safe m Q) (f : φ) :
    m ≠ .error (.fault f) := by
  rintro rfl; exact h

/-- What a sequenced computation did, when it returned. -/
theorem bind_eq_ok {m : Comp φ α} {k : α → Comp φ β} {b : β} :
    m >>= k = .ok b ↔ ∃ a, m = .ok a ∧ k a = .ok b := by
  rcases m with e | a
  · refine ⟨fun h ↦ ?_, fun ⟨_, h, _⟩ ↦ ?_⟩ <;> cases h
  · refine ⟨fun h ↦ ⟨a, rfl, h⟩, fun ⟨_, h, hk⟩ ↦ ?_⟩
    cases h; exact hk

/-! ### Computations that cannot block -/

/-- The computation is not blocked: it returns or faults. -/
def Proceeds (m : Comp φ α) : Prop := m ≠ .error .blocked

theorem proceeds_ok (a : α) : Proceeds (.ok a : Comp φ α) := fun h ↦ by cases h

theorem proceeds_fault (f : φ) : Proceeds (.error (.fault f) : Comp φ α) := fun h ↦ by cases h

/-- Where a sequenced computation is blocked. -/
theorem bind_eq_blocked {m : Comp φ α} {k : α → Comp φ β} :
    m >>= k = .error .blocked ↔ m = .error .blocked ∨ ∃ a, m = .ok a ∧ k a = .error .blocked := by
  rcases m with e | a
  · refine ⟨fun h ↦ .inl ?_, ?_⟩
    · cases h
      rfl
    · intro h
      rcases h with h | ⟨_, h, _⟩ <;> cases h
      rfl
  · refine ⟨fun h ↦ .inr ⟨a, rfl, h⟩, fun h ↦ ?_⟩
    rcases h with h | ⟨_, h, hk⟩ <;> cases h
    exact hk

theorem Proceeds.bind {m : Comp φ α} {k : α → Comp φ β} (h : Proceeds m)
    (hk : ∀ a, Proceeds (k a)) : Proceeds (m >>= k) := by
  intro he
  rcases bind_eq_blocked.mp he with hm | ⟨a, -, ha⟩
  · exact h hm
  · exact hk a ha

theorem Proceeds.ite {c : Prop} [Decidable c] {m m' : Comp φ α} (h : Proceeds m)
    (h' : Proceeds m') : Proceeds (if c then m else m') := by
  split
  · exact h
  · exact h'

/-- A machine with labelled steps. -/
structure Machine (σ lab φ : Type) where
  /-- The states a run may start from. -/
  init : σ → Prop
  /-- One step. -/
  step : σ → lab → Comp φ σ

namespace Machine

variable (M : Machine σ lab φ)

/-- The states that runs reach. -/
inductive Reachable : σ → Prop
  | init {s : σ} : M.init s → Reachable s
  | step {s s' : σ} (a : lab) : Reachable s → M.step s a = .ok s' → Reachable s'

/-- Take the steps of a list in order. -/
def run (s : σ) : List lab → Comp φ σ
  | [] => .ok s
  | a :: as => M.step s a >>= fun s' ↦ run s' as

theorem run_append (s : σ) (as bs : List lab) :
    M.run s (as ++ bs) = M.run s as >>= fun s' ↦ M.run s' bs := by
  induction as generalizing s with
  | nil => rfl
  | cons a as ih =>
    rw [List.cons_append, run, run]
    rcases M.step s a with e | t
    · rfl
    · rw [ok_bind, ok_bind, ih]

variable {M}

theorem Reachable.run {s s' : σ} (hs : M.Reachable s) {as : List lab} (h : M.run s as = .ok s') :
    M.Reachable s' := by
  induction as generalizing s with
  | nil => cases h; exact hs
  | cons a as ih =>
    obtain ⟨t, ht, hrest⟩ := bind_eq_ok.mp h
    exact ih (hs.step a ht) hrest

/-- The state after a list of steps, or the first one if they cannot all be taken. -/
def result (M : Machine σ lab φ) (s : σ) (as : List lab) : σ :=
  match M.run s as with
  | .ok s' => s'
  | .error _ => s

theorem reachable_result {s : σ} (hs : M.Reachable s) (as : List lab) :
    M.Reachable (M.result s as) := by
  rw [result]
  split
  · rename_i h
    exact hs.run h
  · exact hs

theorem run_eq_result {s : σ} {as : List lab} (h : (M.run s as).toBool = true) :
    M.run s as = .ok (M.result s as) := by
  rw [result]
  split
  · rename_i h'
    exact h'
  · rename_i h'
    rw [h'] at h
    cases h

/-- **The invariant rule**, for a property that steps preserve whenever they return. -/
theorem Reachable.invariant {I : σ → Prop} (h0 : ∀ s, M.init s → I s)
    (hstep : ∀ s a s', I s → M.step s a = .ok s' → I s') {s : σ} (hs : M.Reachable s) : I s := by
  induction hs with
  | init h => exact h0 _ h
  | step a _ h ih => exact hstep _ a _ ih h

/-- **The safety rule**: if every step out of a state with the invariant is safe for the
invariant, then reachable states have the invariant and none of their steps faults. -/
theorem reachable_safe {I : σ → Prop} (h0 : ∀ s, M.init s → I s)
    (hstep : ∀ s a, I s → Safe (M.step s a) I) {s : σ} (hs : M.Reachable s) :
    I s ∧ ∀ a f, M.step s a ≠ .error (.fault f) := by
  have hI : I s := hs.invariant h0 fun s a s' hI h ↦ (hstep s a hI).of_ok h
  exact ⟨hI, fun a f ↦ (hstep s a hI).ne_fault f⟩

/-- **The accounting rule**: where every step out of a reachable state adds one to a count, a run
takes as many steps as it adds. -/
theorem length_of_run {f : σ → ℕ}
    (hf : ∀ s a s', M.Reachable s → M.step s a = .ok s' → f s' = f s + 1) {s s' : σ}
    (hs : M.Reachable s) {as : List lab} (h : M.run s as = .ok s') : f s' = f s + as.length := by
  induction as generalizing s with
  | nil => cases h; rfl
  | cons a as ih =>
    obtain ⟨t, ht, hrest⟩ := bind_eq_ok.mp h
    have hone := hf s a t hs ht
    have hmore := ih (hs.step a ht) hrest
    rw [List.length_cons]
    omega

/-- All runs out of a state take `n` steps: none takes more, one that has taken fewer can go on, and
one that has taken all of them is in a state with `Q`. -/
structure EndsAfter (M : Machine σ lab φ) (s : σ) (n : ℕ) (Q : σ → Prop) : Prop where
  bound : ∀ as s', M.run s as = .ok s' → as.length ≤ n
  extend : ∀ as s', M.run s as = .ok s' → as.length < n → ∃ a t, M.step s' a = .ok t
  final : ∀ as s', M.run s as = .ok s' → as.length = n → Q s'

/-- **The termination rule**: it is enough to count the steps in the state, to bound the count, and
to show that only states where everything is done are without a step and have the full count. -/
theorem EndsAfter.of_count {f : σ → ℕ} {s : σ} {n : ℕ} {D Q : σ → Prop} (hs : M.Reachable s)
    (hzero : f s = 0)
    (hf : ∀ s a s', M.Reachable s → M.step s a = .ok s' → f s' = f s + 1)
    (hle : ∀ s, M.Reachable s → f s ≤ n)
    (hstep : ∀ s, M.Reachable s → ¬ D s → ∃ a t, M.step s a = .ok t)
    (hD : ∀ s, M.Reachable s → D s → f s = n ∧ Q s) : M.EndsAfter s n Q := by
  have hlength {as : List lab} {s' : σ} (h : M.run s as = .ok s') : f s' = as.length := by
    rw [length_of_run hf hs h, hzero, Nat.zero_add]
  refine ⟨?_, ?_, ?_⟩
  · intro as s' h
    rw [← hlength h]
    exact hle s' (hs.run h)
  · intro as s' h hlt
    rw [← hlength h] at hlt
    refine hstep s' (hs.run h) fun hd ↦ ?_
    exact absurd (hD s' (hs.run h) hd).1 (Nat.ne_of_lt hlt)
  · intro as s' h heq
    rw [← hlength h] at heq
    have hr := hs.run h
    refine (hD s' hr ?_).2
    -- a further step would be one too many
    by_contra hd
    obtain ⟨a, t, ht⟩ := hstep s' hr hd
    have hmore := hf s' a t hr ht
    have hbound := hle t (hr.step a ht)
    omega

end Machine

end StepMachine

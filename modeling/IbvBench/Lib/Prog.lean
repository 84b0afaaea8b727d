import Mathlib.Data.List.Basic
import Mathlib.Tactic.Common

/-!
# Programs that emit, and that may go wrong or not end

A `Prog` is a fragment of an imperative program, given by what it has done within a budget: it has
not come to its end, it has gone wrong, or it has returned a value; and what it emitted on the way.
A larger budget does not change what has been decided with a smaller one, and this is part of the
type.

* `Prog.bind`, `Prog.emit`, `Prog.fail`, `Prog.loop` — sequencing, output, faults and `while`.
* `Ends p out a`, `Fails p f`, `Diverges p` — it emits `out` and returns `a`; it goes wrong; it does
  neither.  Exactly one of the three is the case, for one `out`, `a` or `f` (`Does.unique`,
  `Ends.not_fails`, `Ends.not_diverges`).
* `Ends.bind` is the rule for sequencing.  A loop is described by the sequence of the states in
  front of its passes: `Ends.loop` when it leaves the loop at some pass, `Fails.loop` when one goes
  wrong, `diverges_loop` when there is always another one.
-/

set_option autoImplicit false

/-- What a fragment that has come to its end has done. -/
abbrev Done (φ ε α : Type) := Except φ (List ε × α)

/-- A fragment that emits `ε`, returns `α` and may fail with `φ`. -/
structure Prog (φ ε α : Type) where
  /-- What it has done within a budget. -/
  exec : ℕ → Option (Done φ ε α)
  /-- More budget changes nothing. -/
  mono : ∀ n r, exec n = some r → exec (n + 1) = some r

namespace Prog

variable {φ ε α β σ : Type}

/-- What follows a fragment that has returned. -/
def andThen (x : Option (Done φ ε α)) (k : α → Option (Done φ ε β)) : Option (Done φ ε β) :=
  match x with
  | none => none
  | some (.error f) => some (.error f)
  | some (.ok (out, a)) =>
    match k a with
    | none => none
    | some (.error f) => some (.error f)
    | some (.ok (out', b)) => some (.ok (out ++ out', b))

theorem andThen_mono {x y : Option (Done φ ε α)} {k l : α → Option (Done φ ε β)} {r : Done φ ε β}
    (hxy : ∀ r, x = some r → y = some r) (hkl : ∀ a r, k a = some r → l a = some r)
    (h : andThen x k = some r) : andThen y l = some r := by
  rcases x with _ | f | ⟨out, a⟩
  · cases h
  · rw [hxy _ rfl]
    exact h
  · rw [hxy _ rfl]
    unfold andThen at h ⊢
    cases hk : k a with
    | none =>
      simp only [hk] at h
      cases h
    | some r' =>
      simp only [hk] at h
      simp only [hkl a r' hk]
      exact h

/-- Return a value. -/
def ret (a : α) : Prog φ ε α where
  exec _ := some (.ok ([], a))
  mono _ _ h := h

/-- Emit an event. -/
def emit (e : ε) : Prog φ ε Unit where
  exec _ := some (.ok ([e], ()))
  mono _ _ h := h

/-- Go wrong. -/
def fail (f : φ) : Prog φ ε α where
  exec _ := some (.error f)
  mono _ _ h := h

/-- One fragment behind another. -/
def bind (p : Prog φ ε α) (k : α → Prog φ ε β) : Prog φ ε β where
  exec n := andThen (p.exec n) fun a ↦ (k a).exec n
  mono n _ h := andThen_mono (p.mono n) (fun a ↦ (k a).mono n) h

instance : Monad (Prog φ ε) where
  pure := ret
  bind := bind

/-- The passes of a loop, each test of its condition taking one from the budget. -/
def loopExec (cond : σ → Bool) (body : σ → Prog φ ε σ) : ℕ → σ → Option (Done φ ε σ)
  | 0, _ => none
  | n + 1, s =>
    if cond s then andThen ((body s).exec n) (loopExec cond body n) else some (.ok ([], s))

theorem loopExec_mono (cond : σ → Bool) (body : σ → Prog φ ε σ) (n : ℕ) (s : σ) (r : Done φ ε σ)
    (h : loopExec cond body n s = some r) : loopExec cond body (n + 1) s = some r := by
  induction n generalizing s r with
  | zero => cases h
  | succ n ih =>
    rw [loopExec] at h ⊢
    by_cases hcond : cond s = true
    · rw [if_pos hcond] at h ⊢
      exact andThen_mono ((body s).mono n) ih h
    · rw [if_neg hcond] at h ⊢
      exact h

/-- `while (cond) body`, from the state `s` on. -/
def loop (cond : σ → Bool) (body : σ → Prog φ ε σ) (s : σ) : Prog φ ε σ where
  exec n := loopExec cond body n s
  mono n := loopExec_mono cond body n s

/-! ## What a fragment does -/

/-- With enough budget it has done `r`. -/
def Does (p : Prog φ ε α) (r : Done φ ε α) : Prop := ∃ n, p.exec n = some r

/-- It emits `out` and returns `a`. -/
def Ends (p : Prog φ ε α) (out : List ε) (a : α) : Prop := p.Does (.ok (out, a))

/-- It goes wrong. -/
def Fails (p : Prog φ ε α) (f : φ) : Prop := p.Does (.error f)

/-- It does not come to an end. -/
def Diverges (p : Prog φ ε α) : Prop := ∀ n, p.exec n = none

section

variable {p : Prog φ ε α} {k : α → Prog φ ε β} {out out' : List ε} {a : α} {b : β} {f : φ}
  {r r' : Done φ ε α} {e : ε} {m n : ℕ}

theorem exec_le (h : p.exec n = some r) (hle : n ≤ m) : p.exec m = some r := by
  induction hle with
  | refl => exact h
  | step _ ih => exact p.mono _ _ ih

/-- Only one thing is done. -/
theorem Does.unique (h : p.Does r) (h' : p.Does r') : r = r' := by
  obtain ⟨n, hn⟩ := h
  obtain ⟨m, hm⟩ := h'
  have hmax := exec_le hn (Nat.le_max_left n m)
  rw [exec_le hm (Nat.le_max_right n m)] at hmax
  exact (Option.some.inj hmax).symm

theorem Does.not_diverges (h : p.Does r) : ¬ p.Diverges := by
  intro hd
  obtain ⟨n, hn⟩ := h
  rw [hd n] at hn
  cases hn

theorem Ends.not_fails (h : p.Ends out a) : ¬ p.Fails f := by
  intro hf
  cases Does.unique h hf

theorem Ends.not_diverges (h : p.Ends out a) : ¬ p.Diverges := Does.not_diverges h

theorem Ends.pure (a : α) : (Pure.pure a : Prog φ ε α).Ends [] a := ⟨0, rfl⟩

theorem Ends.emit (e : ε) : (Prog.emit e : Prog φ ε Unit).Ends [e] () := ⟨0, rfl⟩

theorem Fails.fail (f : φ) : (Prog.fail f : Prog φ ε α).Fails f := ⟨0, rfl⟩

theorem Ends.bind (h : p.Ends out a) (hk : (k a).Ends out' b) : (p >>= k).Ends (out ++ out') b := by
  obtain ⟨n, hn⟩ := h
  obtain ⟨m, hm⟩ := hk
  refine ⟨max n m, ?_⟩
  show andThen (p.exec (max n m)) (fun a ↦ (k a).exec (max n m)) = _
  rw [exec_le hn (Nat.le_max_left n m), andThen]
  simp only [exec_le hm (Nat.le_max_right n m)]

theorem Ends.bind_fails (h : p.Ends out a) (hk : (k a).Fails f) : (p >>= k).Fails f := by
  obtain ⟨n, hn⟩ := h
  obtain ⟨m, hm⟩ := hk
  refine ⟨max n m, ?_⟩
  show andThen (p.exec (max n m)) (fun a ↦ (k a).exec (max n m)) = _
  rw [exec_le hn (Nat.le_max_left n m), andThen]
  simp only [exec_le hm (Nat.le_max_right n m)]

theorem Fails.bind (h : p.Fails f) : (p >>= k).Fails f := by
  obtain ⟨n, hn⟩ := h
  refine ⟨n, ?_⟩
  show andThen (p.exec n) (fun a ↦ (k a).exec n) = _
  rw [hn, andThen]

end

/-! ## Loops

The states in front of the passes are `s 0`, `s 1` and so on, and `out k` is what pass `k` emits. -/

section

variable {cond : σ → Bool} {body : σ → Prog φ ε σ} {s : ℕ → σ} {out : ℕ → List ε} {K : ℕ} {f : φ}

/-- A pass, and the rest of the loop. -/
theorem Ends.loop_pass {s s' t : σ} {out out' : List ε} (hcond : cond s = true)
    (hpass : (body s).Ends out s') (hrest : (loop cond body s').Ends out' t) :
    (loop cond body s).Ends (out ++ out') t := by
  obtain ⟨n, hn⟩ := hpass.bind hrest
  refine ⟨n + 1, ?_⟩
  show loopExec cond body (n + 1) s = _
  rw [loopExec, if_pos hcond]
  exact hn

theorem Fails.loop_pass {s s' : σ} {out : List ε} (hcond : cond s = true)
    (hpass : (body s).Ends out s') (hrest : (loop cond body s').Fails f) :
    (loop cond body s).Fails f := by
  obtain ⟨n, hn⟩ := hpass.bind_fails hrest
  refine ⟨n + 1, ?_⟩
  show loopExec cond body (n + 1) s = _
  rw [loopExec, if_pos hcond]
  exact hn

/-- **A loop that is left in front of pass `K`.** -/
theorem Ends.loop (hpass : ∀ k < K, cond (s k) = true ∧ (body (s k)).Ends (out k) (s (k + 1)))
    (hlast : cond (s K) = false) :
    (loop cond body (s 0)).Ends ((List.range K).flatMap out) (s K) := by
  induction K generalizing s out with
  | zero =>
    refine ⟨1, ?_⟩
    show loopExec cond body 1 (s 0) = _
    rw [loopExec, if_neg (by rw [hlast]; decide)]
    rfl
  | succ K ih =>
    obtain ⟨hcond, hfirst⟩ := hpass 0 (Nat.zero_lt_succ K)
    have hrest := @ih (fun k ↦ s (k + 1)) (fun k ↦ out (k + 1))
      (fun k hk ↦ hpass (k + 1) (Nat.succ_lt_succ hk)) hlast
    rw [List.range_succ_eq_map, List.flatMap_cons, List.flatMap_map]
    exact hfirst.loop_pass hcond hrest

theorem Fails.loop_first {s : σ} (hcond : cond s = true) (hfail : (body s).Fails f) :
    (loop cond body s).Fails f := by
  obtain ⟨n, hn⟩ := hfail
  refine ⟨n + 1, ?_⟩
  show loopExec cond body (n + 1) s = _
  rw [loopExec, if_pos hcond, hn, andThen]

/-- **A loop whose pass `K` goes wrong.** -/
theorem Fails.loop (hpass : ∀ k < K, cond (s k) = true ∧ (body (s k)).Ends (out k) (s (k + 1)))
    (hcond : cond (s K) = true) (hfail : (body (s K)).Fails f) :
    (loop cond body (s 0)).Fails f := by
  induction K generalizing s out with
  | zero => exact .loop_first hcond hfail
  | succ K ih =>
    obtain ⟨hcond₀, hfirst⟩ := hpass 0 (Nat.zero_lt_succ K)
    exact Fails.loop_pass hcond₀ hfirst (@ih (fun k ↦ s (k + 1)) (fun k ↦ out (k + 1))
      (fun k hk ↦ hpass (k + 1) (Nat.succ_lt_succ hk)) hcond hfail)

/-- **A loop that always makes another pass.** -/
theorem diverges_loop (hpass : ∀ k, cond (s k) = true ∧ (body (s k)).Ends (out k) (s (k + 1))) :
    (loop cond body (s 0)).Diverges := by
  intro n
  have hall : ∀ k, loopExec cond body n (s k) = none := by
    induction n with
    | zero => exact fun _ ↦ rfl
    | succ n ih =>
      intro k
      obtain ⟨hcond, hbody⟩ := hpass k
      rw [loopExec, if_pos hcond]
      cases hexec : (body (s k)).exec n with
      | none => rfl
      | some r =>
        obtain rfl := Does.unique ⟨n, hexec⟩ hbody
        simp only [andThen, ih]
  exact hall 0

end

end Prog

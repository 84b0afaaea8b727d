import Mathlib.Data.List.FinRange
import Mathlib.Data.List.Flatten
import Mathlib.Logic.Function.Basic
import Mathlib.Tactic.Common

/-!
# Put and fence

What a key-value exchange between `n` processes is for, without saying how it is done.  Processes
*put* pairs, one at a time and in any order; a *fence* of all of them makes what has been put since
the last fence visible to all.  Between two fences is an *epoch*.

* `State` — what each process has put in the current epoch, and what was put in each epoch before.
* `history` — the state after a list of calls.
* `Latest a k v` — `v` was put for `k` in the latest epoch in which `k` was put; this is the value
  that the interface promises.  `First a k v` is the same for the earliest one.
-/

set_option autoImplicit false

namespace PutFence

variable {n : ℕ} {K V : Type}

/-- A call of one process, or of all. -/
inductive Call (n : ℕ) (K V : Type) where
  | put (i : Fin n) (key : K) (value : V)
  | fence

/-- What has been put. -/
structure State (n : ℕ) (K V : Type) where
  /-- In the current epoch, by each process. -/
  pending : Fin n → List (K × V) := fun _ ↦ []
  /-- In each epoch that has ended, from the first to the last. -/
  epochs : List (List (K × V)) := []

namespace State

/-- The pairs of the current epoch, grouped by process. -/
def gathered (a : State n K V) : List (K × V) := (List.finRange n).flatMap a.pending

/-- All visible pairs, from the oldest to the newest. -/
def visible (a : State n K V) : List (K × V) := a.epochs.flatten

/-- The state after a call. -/
def apply (a : State n K V) : Call n K V → State n K V
  | .put i key value =>
    { a with pending := Function.update a.pending i (a.pending i ++ [(key, value)]) }
  | .fence => { epochs := a.epochs ++ [a.gathered] }

/-- The state after a list of calls. -/
def applyAll (a : State n K V) (calls : List (Call n K V)) : State n K V := calls.foldl apply a

theorem applyAll_append (a : State n K V) (calls calls' : List (Call n K V)) :
    a.applyAll (calls ++ calls') = (a.applyAll calls).applyAll calls' :=
  List.foldl_append

theorem visible_fence (a : State n K V) :
    (a.apply .fence).visible = a.visible ++ a.gathered := by
  simp [visible, apply]

theorem pending_put_self (a : State n K V) (i : Fin n) (key : K) (value : V) :
    (a.apply (.put i key value)).pending i = a.pending i ++ [(key, value)] :=
  Function.update_self ..

theorem pending_put_of_ne (a : State n K V) {i q : Fin n} (h : q ≠ i) (key : K) (value : V) :
    (a.apply (.put i key value)).pending q = a.pending q :=
  Function.update_of_ne h ..

/-- A put adds its pair to those of the current epoch. -/
theorem mem_gathered_put {a : State n K V} {i : Fin n} {key : K} {value : V} {p : K × V} :
    p ∈ (a.apply (.put i key value)).gathered ↔ p ∈ a.gathered ∨ p = (key, value) := by
  rw [gathered, gathered, List.mem_flatMap, List.mem_flatMap]
  constructor
  · rintro ⟨q, hq, hmem⟩
    by_cases hqi : q = i
    · rw [hqi, pending_put_self, List.mem_append, List.mem_singleton] at hmem
      exact hmem.imp_left fun h ↦ ⟨i, List.mem_finRange i, h⟩
    · rw [pending_put_of_ne a hqi] at hmem
      exact .inl ⟨q, hq, hmem⟩
  · rintro (⟨q, hq, hmem⟩ | heq)
    · refine ⟨q, hq, ?_⟩
      by_cases hqi : q = i
      · rw [hqi, pending_put_self, ← hqi]
        exact List.mem_append_left _ hmem
      · rwa [pending_put_of_ne a hqi]
    · refine ⟨i, List.mem_finRange i, ?_⟩
      rw [pending_put_self, heq]
      exact List.mem_append_right _ (List.mem_singleton_self _)

/-- Behind a fence the current epoch is empty. -/
theorem gathered_fence (a : State n K V) : (a.apply .fence).gathered = [] := by
  rw [gathered, List.flatMap_eq_nil_iff]
  exact fun _ _ ↦ rfl

/-- What one process has put is part of what all have. -/
theorem pending_length_le (a : State n K V) (i : Fin n) :
    (a.pending i).length ≤ a.gathered.length :=
  (List.sublist_flatten_of_mem (List.mem_map_of_mem (List.mem_finRange i))).length_le

theorem length_flatMap_le {α β : Type} {l : List α} {f g : α → List β}
    (h : ∀ a, (f a).length ≤ (g a).length) : (l.flatMap f).length ≤ (l.flatMap g).length := by
  induction l with
  | nil => exact Nat.le_refl _
  | cons a l ih =>
    rw [List.flatMap_cons, List.flatMap_cons, List.length_append, List.length_append]
    exact Nat.add_le_add (h a) ih

/-- Calls only add. -/
theorem length_apply_le (a : State n K V) (c : Call n K V) :
    a.visible.length + a.gathered.length
      ≤ (a.apply c).visible.length + (a.apply c).gathered.length := by
  cases c with
  | put i key value =>
    refine Nat.add_le_add_left (length_flatMap_le fun j ↦ ?_) _
    by_cases hj : j = i
    · subst hj
      simp [apply]
    · simp [apply, hj]
  | fence =>
    rw [visible_fence, List.length_append]
    exact Nat.le_add_right _ _

theorem length_applyAll_le (a : State n K V) (calls : List (Call n K V)) :
    a.visible.length + a.gathered.length
      ≤ (a.applyAll calls).visible.length + (a.applyAll calls).gathered.length := by
  induction calls generalizing a with
  | nil => exact Nat.le_refl _
  | cons c calls ih => exact Nat.le_trans (a.length_apply_le c) (ih (a.apply c))

/-- Epochs that have ended stay. -/
theorem mem_epochs_applyAll {a : State n K V} {e : List (K × V)} (he : e ∈ a.epochs)
    (calls : List (Call n K V)) : e ∈ (a.applyAll calls).epochs := by
  induction calls generalizing a with
  | nil => exact he
  | cons c calls ih =>
    refine ih ?_
    cases c with
    | put i key value => exact he
    | fence => exact List.mem_append_left _ he

end State

/-- What has been put after a list of calls. -/
def history (calls : List (Call n K V)) : State n K V := State.applyAll {} calls

/-- No key is put twice in an epoch, by whichever process. -/
def OncePerEpoch (a : State n K V) : Prop := ∀ e ∈ a.epochs, (e.map Prod.fst).Nodup

/-- The value of the latest epoch in which the key was put. -/
def Latest (a : State n K V) (key : K) (value : V) : Prop :=
  ∃ pre e post, a.epochs = pre ++ e :: post ∧ (key, value) ∈ e ∧ ∀ e' ∈ post, key ∉ e'.map Prod.fst

/-- The value of the earliest epoch in which the key was put. -/
def First (a : State n K V) (key : K) (value : V) : Prop :=
  ∃ pre e post, a.epochs = pre ++ e :: post ∧ (key, value) ∈ e ∧ ∀ e' ∈ pre, key ∉ e'.map Prod.fst

/-! ## Looking a key up from the oldest pair to the newest -/

section

variable [DecidableEq K]

theorem lookup_flatten (epochs : List (List (K × V))) (key : K) :
    epochs.flatten.lookup key = epochs.findSome? (·.lookup key) := by
  induction epochs with
  | nil => rfl
  | cons e epochs ih =>
    rw [List.flatten_cons, List.lookup_append, ih, List.findSome?_cons]
    cases e.lookup key <;> rfl

theorem lookup_eq_none {l : List (K × V)} {key : K} :
    l.lookup key = none ↔ key ∉ l.map Prod.fst := by
  rw [List.lookup_eq_none_iff, List.mem_map]
  constructor
  · rintro h ⟨p, hp, he⟩
    have hne := h p hp
    simp [he] at hne
  · intro h p hp
    have hne : key ≠ p.1 := fun he ↦ h ⟨p, hp, he.symm⟩
    simpa using hne

/-- Among pairs with different keys the lookup finds exactly the members. -/
theorem lookup_eq_some {l : List (K × V)} (hl : (l.map Prod.fst).Nodup) {key : K} {value : V} :
    l.lookup key = some value ↔ (key, value) ∈ l := by
  induction l with
  | nil => simp
  | cons p l ih =>
    obtain ⟨hp, hl⟩ := List.nodup_cons.mp hl
    by_cases hk : key = p.1
    · rw [List.lookup_cons, show (key == p.1) = true by simpa using hk, List.mem_cons]
      refine ⟨fun h ↦ .inl ?_, ?_⟩
      · exact Prod.ext hk (Option.some.inj h).symm
      · intro h
        rcases h with h | h
        · rw [← h]
        · exact absurd (hk ▸ List.mem_map_of_mem h) hp
    · rw [List.lookup_cons, show (key == p.1) = false by simpa using hk, List.mem_cons]
      rw [ih hl]
      refine ⟨.inr, fun h ↦ h.resolve_left fun he ↦ hk ?_⟩
      rw [← he]

/-- The lookup finds the value of the *earliest* epoch. -/
theorem lookup_visible {a : State n K V} (ha : OncePerEpoch a) {key : K} {value : V} :
    a.visible.lookup key = some value ↔ First a key value := by
  rw [State.visible, lookup_flatten, List.findSome?_eq_some_iff]
  constructor
  · rintro ⟨pre, e, post, he, hsome, hnone⟩
    have hnodup := ha e (by rw [he]; exact List.mem_append_right _ List.mem_cons_self)
    exact ⟨pre, e, post, he, (lookup_eq_some hnodup).mp hsome, fun e' he' ↦
      lookup_eq_none.mp (hnone e' he')⟩
  · rintro ⟨pre, e, post, he, hmem, hnone⟩
    have hnodup := ha e (by rw [he]; exact List.mem_append_right _ List.mem_cons_self)
    exact ⟨pre, e, post, he, (lookup_eq_some hnodup).mpr hmem, fun e' he' ↦
      lookup_eq_none.mpr (hnone e' he')⟩

/-- The lookup finds the oldest of the pairs with the key. -/
theorem lookup_eq_head?_filter (l : List (K × V)) (key : K) :
    l.lookup key = (l.filter fun p ↦ p.1 = key).head?.map Prod.snd := by
  induction l with
  | nil => rfl
  | cons p l ih =>
    by_cases hk : p.1 = key
    · rw [List.lookup_cons, show (key == p.1) = true by simpa using hk.symm,
        List.filter_cons_of_pos (by simpa using hk)]
      rfl
    · rw [List.lookup_cons, show (key == p.1) = false by simpa using fun h ↦ hk h.symm,
        List.filter_cons_of_neg (by simpa using hk), ih]

end

end PutFence
